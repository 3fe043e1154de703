import Ntfs2Btrfs.Mappings

/-!
# Reading the device

`ntfs::read` rounds a request to sectors, reads until the buffer is full, and
copies the requested part out of its temporary buffer.  The loop moves the
offset that the final copy is computed from.

What the system calls do is a parameter: whether a seek succeeds, and how many
bytes each `::read` returns.  Buffers lie in memory, so that their lengths,
rounded up to a sector, do not overflow.
-/

namespace Ntfs2Btrfs

open ByteStore

/-! ## The code -/

/-- The answer of `::read` at a call, a file position and a requested length. -/
abbrev PosixRead := Nat → Nat → Nat → Int

/-- How `ntfs::read` ends, if it does. -/
inductive ReadOutcome where
  | running
  | threw (error : NtfsError)
  | copiedOutside
  | returned (buf : Bytes)
deriving DecidableEq, Repr

/-- How the loop over `::read` ends: the moved offset and the filled buffer. -/
inductive FillOutcome where
  | running
  | threw (error : NtfsError)
  | filled (offset : Nat) (buf : Bytes)
deriving DecidableEq, Repr

/-- The loop over `::read`, with a bound on the number of calls. -/
def fillLoop (device : Bytes) (posixRead : PosixRead) (origLength : Nat) :
    Nat → Nat → Nat → Nat → Bytes → FillOutcome
  | 0, _, _, _, _ => .running
  | turns + 1, call, offset, length, buf =>
      let ret := posixRead call offset length
      if ret < 0 then .threw (.reading origLength offset)
      else
        let buf := buf ++ slice device offset ret.toNat
        if ret.toNat = length then .filled offset buf
        else
          fillLoop device posixRead origLength turns (call + 1) (offset + ret.toNat)
            (length - ret.toNat) buf

/-- Seek, and fill a buffer of the given length. -/
def fill (device : Bytes) (posixRead : PosixRead) (seek : Nat → Bool)
    (turns offset length : Nat) : FillOutcome :=
  if seek offset = false then .threw (.seeking offset)
  else fillLoop device posixRead length turns 0 offset length []

/-- `memcpy` of `length` bytes out of a buffer. -/
def copyFrom (buf : Bytes) (start : Int) (length : Nat) : ReadOutcome :=
  if length = 0 then .returned []
  else if 0 ≤ start ∧ start.toNat + length ≤ buf.length then
    .returned (slice buf start.toNat length)
  else .copiedOutside

/-- The request is not a whole number of sectors; before the boot sector is read none is. -/
def Unaligned (sector : Option Nat) (offset length : Nat) : Prop :=
  ∃ sectorSize ∈ sector, offset % sectorSize ≠ 0 ∨ length % sectorSize ≠ 0

instance (sector : Option Nat) (offset length : Nat) :
    Decidable (Unaligned sector offset length) :=
  match sector with
  | none => isFalse fun ⟨_, member, _⟩ => absurd member (by simp)
  | some sectorSize =>
      decidable_of_iff (offset % sectorSize ≠ 0 ∨ length % sectorSize ≠ 0)
        ⟨fun part => ⟨sectorSize, rfl, part⟩, fun ⟨_, member, part⟩ => by
          obtain rfl := Option.some.inj member
          exact part⟩

/-- The request's offset, rounded down to a sector. -/
def sectorStart (sector : Option Nat) (offset : Nat) : Nat :=
  match sector with
  | none => offset
  | some sectorSize => offset - offset % sectorSize

/-- The number of bytes from there to the request's end, rounded up to a sector. -/
def sectorLength (sector : Option Nat) (offset length : Nat) : Nat :=
  match sector with
  | none => length
  | some sectorSize =>
      let extended := length + (offset - (offset - offset % sectorSize))
      if extended % sectorSize ≠ 0 then extended + (sectorSize - extended % sectorSize)
      else extended

/-- `ntfs::read`. -/
def ntfsRead (device : Bytes) (posixRead : PosixRead) (seek : Nat → Bool)
    (sector : Option Nat) (turns offset length : Nat) : ReadOutcome :=
  if Unaligned sector offset length then
    match fill device posixRead seek turns (sectorStart sector offset)
        (sectorLength sector offset length) with
    | .running => .running
    | .threw error => .threw error
    -- the loop has moved the offset if more than one call was needed
    | .filled moved tmpbuf => copyFrom tmpbuf ((offset : Int) - moved) length
  else
    match fill device posixRead seek turns offset length with
    | .running => .running
    | .threw error => .threw error
    | .filled _ buf => .returned buf

/-! ## The environment and the contract -/

/--
Every call returns between one byte and the requested number while the device
has bytes left, and zero at its end.
-/
def ShortReads (size : Nat) (posixRead : PosixRead) : Prop :=
  ∀ call offset length,
    if offset < size ∧ 0 < length then
      1 ≤ posixRead call offset length ∧
        posixRead call offset length ≤ min length (size - offset)
    else posixRead call offset length = 0

/-- The read ends with exactly the requested bytes, or throws if they are not on the device. -/
def ReadsExactly (device : Bytes) (posixRead : PosixRead) (seek : Nat → Bool)
    (sector : Option Nat) (offset length : Nat) : Prop :=
  ∃ turns,
    if offset + length ≤ device.length then
      ntfsRead device posixRead seek sector turns offset length =
        .returned (slice device offset length)
    else
      ∃ error, ntfsRead device posixRead seek sector turns offset length = .threw error

/-! ## Rounding -/

theorem sectorStart_le (sector : Option Nat) (offset : Nat) :
    sectorStart sector offset ≤ offset := by
  cases sector with
  | none => exact le_rfl
  | some sectorSize => exact Nat.sub_le _ _

theorem le_sectorStart_add_sectorLength (sector : Option Nat) (offset length : Nat) :
    offset + length ≤ sectorStart sector offset + sectorLength sector offset length := by
  cases sector with
  | none => exact le_rfl
  | some sectorSize =>
    have small := Nat.mod_le offset sectorSize
    simp only [sectorStart, sectorLength]
    split_ifs <;> omega

theorem sector_of_not_unaligned
    {sector : Option Nat} {offset length : Nat} (aligned : ¬ Unaligned sector offset length) :
    sectorStart sector offset = offset ∧ sectorLength sector offset length = length := by
  cases sector with
  | none => exact ⟨rfl, rfl⟩
  | some sectorSize =>
    have whole : offset % sectorSize = 0 ∧ length % sectorSize = 0 := by
      by_contra part
      exact aligned ⟨sectorSize, rfl, by omega⟩
    simp [sectorStart, sectorLength, whole.1, whole.2]

theorem sectorLength_pos
    {sector : Option Nat} {offset length : Nat} (unaligned : Unaligned sector offset length) :
    0 < sectorLength sector offset length := by
  obtain ⟨sectorSize, rfl, part⟩ := unaligned
  have small := Nat.mod_le offset sectorSize
  have positive : 0 < length + (offset - (offset - offset % sectorSize)) := by
    rcases part with offsetPart | lengthPart
    · omega
    · have : length ≠ 0 := fun zero => lengthPart (by rw [zero, Nat.zero_mod])
      omega
  simp only [sectorLength]
  split_ifs <;> omega

/-! ## The loop -/

section Loop

variable {size : Nat} {posixRead : PosixRead}

theorem ShortReads.at_end
    (short : ShortReads size posixRead) {offset : Nat} (past : size ≤ offset)
    (call length : Nat) : posixRead call offset length = 0 := by
  have answer := short call offset length
  rwa [if_neg (by omega)] at answer

theorem ShortReads.of_zero
    (short : ShortReads size posixRead) (call offset : Nat) :
    posixRead call offset 0 = 0 := by
  have answer := short call offset 0
  rwa [if_neg (by omega)] at answer

theorem ShortReads.bounds
    (short : ShortReads size posixRead) {offset length : Nat} (before : offset < size)
    (positive : 0 < length) (call : Nat) :
    1 ≤ posixRead call offset length ∧
      posixRead call offset length ≤ min length (size - offset) := by
  have answer := short call offset length
  rwa [if_pos ⟨before, positive⟩] at answer

/-- A range on the device is read, and the offset moves unless the first call reads it all. -/
theorem fillLoop_filled
    (short : ShortReads size posixRead) (device : Bytes) (origLength : Nat) {offset length : Nat} (inside : offset + length ≤ size) (call : Nat)
    (buf : Bytes) :
    ∃ turns moved,
      fillLoop device posixRead origLength turns call offset length buf =
        .filled moved (buf ++ slice device offset length) ∧
      offset ≤ moved ∧ (moved = offset ↔ posixRead call offset length = length) := by
  induction length using Nat.strong_induction_on generalizing offset call buf with
  | _ length ih =>
    rcases Nat.eq_zero_or_pos length with rfl | positive
    · have answer := short.of_zero call offset
      refine ⟨1, offset, ?_, le_rfl, by simp [answer]⟩
      simp [fillLoop, answer]
    have bounds := short.bounds (show offset < size by omega) positive call
    by_cases all : posixRead call offset length = length
    · refine ⟨1, offset, ?_, le_rfl, by simp [all]⟩
      simp [fillLoop, all]
    · obtain ⟨ret, equal⟩ := Int.eq_ofNat_of_zero_le (show 0 ≤ posixRead call offset length by omega)
      rw [equal] at bounds all
      have less : ret < length := by omega
      obtain ⟨turns, moved, filled, above, -⟩ := ih (length - ret) (by omega)
        (show offset + ret + (length - ret) ≤ size by omega) (call + 1)
        (buf ++ slice device offset ret)
      refine ⟨turns + 1, moved, ?_, by omega, ?_⟩
      · have joined : slice device offset length =
            slice device offset ret ++ slice device (offset + ret) (length - ret) := by
          rw [slice, slice, slice, ← List.drop_drop, ← List.take_add, Nat.add_sub_cancel' less.le]
        rw [fillLoop, equal, if_neg (by omega), Int.toNat_natCast, if_neg (by omega), filled,
          List.append_assoc, joined]
      · rw [equal]
        omega

/-- A range that reaches past the end of the device is read for ever. -/
theorem fillLoop_running
    (short : ShortReads size posixRead) (device : Bytes) (origLength : Nat)
    {offset length : Nat} (beyond : size < offset + length) (positive : 0 < length)
    (turns call : Nat) (buf : Bytes) :
    fillLoop device posixRead origLength turns call offset length buf = .running := by
  induction turns generalizing offset length call buf with
  | zero => rfl
  | succ turns ih =>
    rw [fillLoop]
    rcases Nat.lt_or_ge offset size with before | past
    · have bounds := short.bounds before positive call
      rw [if_neg (by omega), if_neg (by omega)]
      exact ih (by omega) (by omega) (call + 1) _
    · rw [short.at_end past, if_neg (by omega), if_neg (by simpa using positive.ne)]
      exact ih (by simpa using beyond) (by simpa using positive) (call + 1) _

end Loop

/-! ## The whole read -/

section Read

variable {size : Nat} {posixRead : PosixRead} {seek : Nat → Bool}

theorem fill_of_not_seek
    {offset : Nat} (failed : seek offset = false) (device : Bytes) (turns length : Nat) :
    fill device posixRead seek turns offset length = .threw (.seeking offset) :=
  if_pos failed

theorem fill_filled
    (short : ShortReads size posixRead) (device : Bytes) {offset length : Nat}
    (sought : seek offset = true) (inside : offset + length ≤ size) :
    ∃ turns moved,
      fill device posixRead seek turns offset length =
        .filled moved (slice device offset length) ∧
      offset ≤ moved ∧ (moved = offset ↔ posixRead 0 offset length = length) := by
  obtain ⟨turns, moved, filled, facts⟩ := fillLoop_filled short device length inside 0 []
  refine ⟨turns, moved, ?_, facts⟩
  rw [fill, if_neg (by simp [sought]), filled, List.nil_append]

theorem fill_running
    (short : ShortReads size posixRead) (device : Bytes) {offset length : Nat}
    (sought : seek offset = true) (beyond : size < offset + length) (positive : 0 < length)
    (turns : Nat) :
    fill device posixRead seek turns offset length = .running := by
  rw [fill, if_neg (by simp [sought])]
  exact fillLoop_running short device length beyond positive turns 0 []

/-- A failed seek is reported, which is right exactly if the range is not on the device. -/
theorem readsExactly_of_not_seek
    {sector : Option Nat} {offset length : Nat}
    (failed : seek (sectorStart sector offset) = false) (device : Bytes) :
    ReadsExactly device posixRead seek sector offset length ↔
      device.length < offset + length := by
  have threw : ∀ turns, ntfsRead device posixRead seek sector turns offset length =
      .threw (.seeking (sectorStart sector offset)) := by
    intro turns
    rw [ntfsRead]
    split_ifs with unaligned
    · rw [fill_of_not_seek failed]
    · have aligned := (@sector_of_not_unaligned sector offset length unaligned).1
      rw [aligned] at failed
      rw [fill_of_not_seek failed, aligned]
  rw [ReadsExactly]
  simp only [threw]
  split_ifs with inside
  · simp [Nat.not_lt.mpr inside]
  · simp [Nat.not_le.mp inside]

/-- A request of whole sectors is read exactly if it lies on the device. -/
theorem readsExactly_of_aligned
    (short : ShortReads size posixRead) {sector : Option Nat} {offset length : Nat}
    (aligned : ¬ Unaligned sector offset length) (sought : seek offset = true)
    {device : Bytes} (whole : device.length = size) :
    ReadsExactly device posixRead seek sector offset length ↔ offset + length ≤ size := by
  rw [ReadsExactly, whole]
  simp only [ntfsRead, if_neg aligned]
  split_ifs with inside
  · obtain ⟨turns, moved, filled, -⟩ := fill_filled short device sought inside
    refine iff_of_true ⟨turns, ?_⟩ inside
    rw [filled]
  · refine iff_of_false ?_ inside
    rintro ⟨turns, error, threw⟩
    rcases Nat.eq_zero_or_pos length with rfl | positive
    · have answer := short.of_zero 0 offset
      cases turns with
      | zero => simp [fill, sought, fillLoop] at threw
      | succ turns => simp [fill, sought, fillLoop, answer] at threw
    · rw [fill_running short device sought (by omega) positive] at threw
      cases threw

/-- A device that is zero everywhere but at one byte. -/
def markedDevice (size address : Nat) : Bytes :=
  (List.replicate size 0).set address 1

theorem getElem?_markedDevice {size address : Nat} (index : Nat) (inside : index < size) :
    (markedDevice size address)[index]? = some (if index = address then 1 else 0) := by
  rw [markedDevice, List.getElem?_set, List.length_replicate]
  by_cases here : address = index
  · rw [if_pos here, if_pos (by omega), if_pos here.symm]
  · rw [if_neg here, if_neg (Ne.symm here), List.getElem?_replicate, if_pos inside]

/-- Bytes from an earlier place are not the requested ones on every device. -/
theorem slice_markedDevice_ne
    {size address before length : Nat} (earlier : before < address) (positive : 0 < length)
    (inside : address < size) :
    slice (markedDevice size address) before length ≠
      slice (markedDevice size address) address length := by
  intro equal
  have first := congrArg (fun bytes : Bytes => bytes[0]?) equal
  simp only [getElem?_slice, if_pos positive, Nat.add_zero] at first
  rw [getElem?_markedDevice before (by omega), getElem?_markedDevice address inside,
    if_neg (by omega), if_pos rfl] at first
  exact absurd (Option.some.inj first) (by decide)

/-- What an unaligned read returns once its sectors are in the temporary buffer. -/
theorem ntfsRead_of_filled
    {sector : Option Nat} {offset length : Nat} (unaligned : Unaligned sector offset length)
    {device : Bytes} {turns moved : Nat} {tmpbuf : Bytes}
    (filled : fill device posixRead seek turns (sectorStart sector offset)
      (sectorLength sector offset length) = .filled moved tmpbuf) :
    ntfsRead device posixRead seek sector turns offset length =
      copyFrom tmpbuf ((offset : Int) - moved) length := by
  rw [ntfsRead, if_pos unaligned, filled]

theorem fillLoop_mono
    {device : Bytes} {origLength turns later call offset length : Nat} {buf : Bytes}
    (longer : turns ≤ later)
    (ended : fillLoop device posixRead origLength turns call offset length buf ≠ .running) :
    fillLoop device posixRead origLength later call offset length buf =
      fillLoop device posixRead origLength turns call offset length buf := by
  induction turns generalizing later call offset length buf with
  | zero => exact absurd rfl ended
  | succ turns ih =>
    obtain ⟨later, rfl⟩ := Nat.exists_eq_succ_of_ne_zero (show later ≠ 0 by omega)
    rw [fillLoop] at ended ⊢
    rw [fillLoop]
    simp only at ended ⊢
    split_ifs at ended ⊢ with failed done
    · rfl
    · rfl
    · exact ih (Nat.le_of_succ_le_succ longer) ended

/-- The filled buffer does not depend on the bound on the number of calls. -/
theorem fill_unique
    {device : Bytes} {offset length turns later moved : Nat} {buf : Bytes}
    (filled : fill device posixRead seek turns offset length = .filled moved buf) :
    fill device posixRead seek later offset length = .running ∨
      fill device posixRead seek later offset length = .filled moved buf := by
  rw [fill] at filled ⊢
  split_ifs at filled ⊢ with failed
  rcases Nat.le_total turns later with longer | shorter
  · exact Or.inr (by rw [fillLoop_mono longer (by simp [filled]), filled])
  · by_cases running : fillLoop device posixRead length later 0 offset length [] = .running
    · exact Or.inl running
    · exact Or.inr (by rw [← fillLoop_mono shorter running, filled])

/-- An unaligned read whose sectors the first call delivers. -/
theorem readsExactly_of_first_call
    (short : ShortReads size posixRead) {sector : Option Nat} {offset length : Nat}
    (unaligned : Unaligned sector offset length)
    (sought : seek (sectorStart sector offset) = true)
    (inside : sectorStart sector offset + sectorLength sector offset length ≤ size)
    (atOnce : length = 0 ∨
      posixRead 0 (sectorStart sector offset) (sectorLength sector offset length) =
        sectorLength sector offset length)
    {device : Bytes} (whole : device.length = size) :
    ReadsExactly device posixRead seek sector offset length := by
  have below := sectorStart_le sector offset
  have above := le_sectorStart_add_sectorLength sector offset length
  obtain ⟨turns, moved, filled, -, first⟩ := fill_filled short device sought inside
  refine ⟨turns, ?_⟩
  rw [if_pos (by omega), ntfsRead_of_filled unaligned filled, copyFrom]
  by_cases empty : length = 0
  · rw [if_pos empty, empty, slice, List.take_zero]
  · obtain rfl := first.mpr (atOnce.resolve_left empty)
    have start : ((offset : Int) - sectorStart sector offset).toNat =
        offset - sectorStart sector offset := by omega
    rw [if_neg empty, start, if_pos, slice_slice (by omega), Nat.add_sub_cancel' below]
    rw [length_slice (by omega)]
    omega

/-- An unaligned read that needs more than one call copies from an earlier place. -/
theorem not_readsExactly_of_later_call
    (short : ShortReads size posixRead) {sector : Option Nat} {offset length : Nat}
    (unaligned : Unaligned sector offset length)
    (sought : seek (sectorStart sector offset) = true)
    (inside : sectorStart sector offset + sectorLength sector offset length ≤ size)
    (positive : 0 < length)
    (more : posixRead 0 (sectorStart sector offset) (sectorLength sector offset length) ≠
      sectorLength sector offset length) :
    ¬ ReadsExactly (markedDevice size offset) posixRead seek sector offset length := by
  have below := sectorStart_le sector offset
  have above := le_sectorStart_add_sectorLength sector offset length
  have whole : (markedDevice size offset).length = size := by simp [markedDevice]
  obtain ⟨turns, moved, filled, later, first⟩ :=
    fill_filled short (markedDevice size offset) sought inside
  have moves : sectorStart sector offset < moved :=
    lt_of_le_of_ne later fun equal => more (first.mp equal.symm)
  rintro ⟨others, outcome⟩
  rw [if_pos (by omega)] at outcome
  rcases @fill_unique _ _ _ _ _ _ others _ _ filled with running | same
  · rw [ntfsRead, if_pos unaligned, running] at outcome
    cases outcome
  · rw [ntfsRead_of_filled unaligned same, copyFrom, if_neg positive.ne'] at outcome
    split_ifs at outcome with within
    have place : ((offset : Int) - moved).toNat = offset - moved := by omega
    rw [length_slice (by omega)] at within
    rw [slice_slice (by omega)] at outcome
    exact slice_markedDevice_ne (by omega) positive (by omega)
      (ReadOutcome.returned.inj outcome)

theorem not_readsExactly_of_beyond
    (short : ShortReads size posixRead) {sector : Option Nat} {offset length : Nat}
    (unaligned : Unaligned sector offset length)
    (sought : seek (sectorStart sector offset) = true)
    (beyond : size < sectorStart sector offset + sectorLength sector offset length)
    (device : Bytes) :
    ¬ ReadsExactly device posixRead seek sector offset length := by
  have running : ∀ turns, ntfsRead device posixRead seek sector turns offset length =
      .running := by
    intro turns
    rw [ntfsRead, if_pos unaligned,
      fill_running short device sought beyond (sectorLength_pos unaligned)]
  rintro ⟨turns, outcome⟩
  rw [running] at outcome
  split_ifs at outcome
  obtain ⟨error, threw⟩ := outcome
  cases threw

/--
On every device of a size the read is exact if and only if the seek fails and
the range is not on the device, or the seek succeeds, the sectors of the range
are on the device, and, for a part of a sector, the first call reads them all.
-/
theorem readsExactly_iff
    (short : ShortReads size posixRead) (sector : Option Nat) (offset length : Nat) :
    (∀ device : Bytes, device.length = size →
        ReadsExactly device posixRead seek sector offset length) ↔
      (seek (sectorStart sector offset) = false ∧ size < offset + length) ∨
      (seek (sectorStart sector offset) = true ∧
        sectorStart sector offset + sectorLength sector offset length ≤ size ∧
        (Unaligned sector offset length → 0 < length →
          posixRead 0 (sectorStart sector offset) (sectorLength sector offset length) =
            sectorLength sector offset length)) := by
  have whole : (markedDevice size offset).length = size := by simp [markedDevice]
  cases sought : seek (sectorStart sector offset) with
  | false =>
    simp only [readsExactly_of_not_seek sought, true_and, Bool.false_eq_true, false_and,
      or_false]
    exact ⟨fun all => whole ▸ all _ whole, fun beyond device equal => equal ▸ beyond⟩
  | true =>
    simp only [Bool.true_eq_false, false_and, true_and, false_or]
    by_cases unaligned : Unaligned sector offset length
    · constructor
      · intro all
        have exact_ := all _ whole
        by_cases inside : sectorStart sector offset + sectorLength sector offset length ≤ size
        · refine ⟨inside, fun _ positive => ?_⟩
          by_contra more
          exact not_readsExactly_of_later_call short unaligned sought inside positive more exact_
        · exact absurd exact_
            (not_readsExactly_of_beyond short unaligned sought (Nat.not_le.mp inside) _)
      · rintro ⟨inside, atOnce⟩ device equal
        refine readsExactly_of_first_call short unaligned sought inside ?_ equal
        rcases Nat.eq_zero_or_pos length with empty | positive
        · exact Or.inl empty
        · exact Or.inr (atOnce unaligned positive)
    · obtain ⟨start, rounded⟩ := sector_of_not_unaligned unaligned
      rw [start] at sought
      rw [start, rounded]
      simp only [unaligned, IsEmpty.forall_iff, and_true]
      constructor
      · intro all
        exact (readsExactly_of_aligned short unaligned sought whole).mp (all _ whole)
      · intro inside device equal
        exact (readsExactly_of_aligned short unaligned sought equal).mpr inside

/-- A `::read` that returns what is left of the request, at most `limit` bytes a call. -/
def readUpTo (limit size : Nat) : PosixRead :=
  fun _ offset length => ((min limit (min length (size - offset)) : Nat) : Int)

theorem shortReads_readUpTo {limit : Nat} (positive : 0 < limit) (size : Nat) :
    ShortReads size (readUpTo limit size) := by
  intro call offset length
  simp only [readUpTo]
  split_ifs <;> omega

end Read

theorem readsExactly_iff_one_sector :
    ShortReads 1024 (readUpTo 4096 1024) ∧
    ((∀ device : Bytes, device.length = 1024 →
        ReadsExactly device (readUpTo 4096 1024) (fun _ => true) (some 512) 600 100) ↔
      (true = false ∧ 1024 < 600 + 100) ∨
      (true = true ∧
        sectorStart (some 512) 600 + sectorLength (some 512) 600 100 ≤ 1024 ∧
        (Unaligned (some 512) 600 100 → 0 < 100 →
          readUpTo 4096 1024 0 (sectorStart (some 512) 600)
              (sectorLength (some 512) 600 100) =
            sectorLength (some 512) 600 100))) :=
  ⟨shortReads_readUpTo (by decide) 1024,
    @readsExactly_iff 1024 (readUpTo 4096 1024) (fun _ => true)
      (shortReads_readUpTo (by decide) 1024) (some 512) 600 100⟩

/--
A read of the sector after the end of a one-sector device never ends, and a
part of a sector that comes in two calls is copied from before the buffer.
-/
theorem ntfsRead_never_ends_and_copies_outside :
    (ShortReads 512 (readUpTo 4096 512) ∧
      ∀ turns, ntfsRead (List.replicate 512 0) (readUpTo 4096 512) (fun _ => true)
        (some 512) turns 512 512 = .running) ∧
    (ShortReads 1024 (readUpTo 256 1024) ∧
      ntfsRead (List.replicate 1024 0) (readUpTo 256 1024) (fun _ => true)
        (some 512) 2 600 100 = .copiedOutside) := by
  refine ⟨⟨shortReads_readUpTo (by decide) 512, fun turns => ?_⟩,
    shortReads_readUpTo (by decide) 1024, by decide +kernel⟩
  have aligned : ¬ Unaligned (some 512) 512 512 := by decide
  rw [ntfsRead, if_neg aligned, fill_running (shortReads_readUpTo (by decide) 512) _ rfl
    (by decide) (by decide)]

end Ntfs2Btrfs
