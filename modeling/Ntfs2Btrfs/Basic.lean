import Ntfs2Btrfs.Lib.Extents

/-!
# Data model of the converter

Sizes and addresses are natural numbers.  They stand for the `uint64_t` of the
source; where a wrap-around can be observed the definition that uses them says
so explicitly.  Virtual (Btrfs) addresses of a chunk exceed its disk addresses
by `chunkVirtOffset`.
-/

namespace Ntfs2Btrfs

open Extents

/-! ## Constants -/

def treeSize : Nat := 0x4000

def stripeLength : Nat := 0x10000

def chunkVirtOffset : Nat := 0x100000

/-- The owner recorded for protected clusters. -/
def dummyInode : Nat := 0xffffffffffffffff

def dataChunkSize : Nat := 128 * 1024 * 1024

def systemChunkSize : Nat := 32 * 1024 * 1024

def reservedArea : Nat := 0x100000

def sectorSize : Nat := 0x1000

/-- The superblock locations, without the terminating zero of the table. -/
def superblockAddrs : List Nat :=
  [0x10000, 0x4000000, 0x4000000000, 0x4000000000000]

def blockGroupData : Nat := 1

def blockGroupSystem : Nat := 2

def blockGroupMetadata : Nat := 4

def chunkTreeObjectid : Nat := 3

/-- `sizeof(btrfs_header)`. -/
def headerSize : Nat := 101

/-- `sizeof(btrfs_item)`. -/
def itemSize : Nat := 25

def sectorAlign (value sector : Nat) : Nat :=
  (value + sector - 1) / sector * sector

theorem dvd_sectorAlign (value sector : Nat) : sector ∣ sectorAlign value sector :=
  dvd_mul_left _ _

theorem le_sectorAlign {sector : Nat} (positive : 0 < sector) (value : Nat) :
    value ≤ sectorAlign value sector := by
  have rest := Nat.mod_lt (value + sector - 1) positive
  have split := Nat.div_add_mod' (value + sector - 1) sector
  rw [sectorAlign]
  omega

/-- The modulus of unsigned 64-bit arithmetic. -/
def wordModulus : Nat := 2 ^ 64

/-- Unsigned 64-bit subtraction. -/
def wordSub (left right : Nat) : Nat :=
  (left + wordModulus - right) % wordModulus

/-- The address lies in the stripe that holds a superblock. -/
def InSuperblockStripe (address : Nat) : Prop :=
  ∃ start ∈ superblockAddrs, start ≤ address ∧ address < start + stripeLength

instance (address : Nat) : Decidable (InSuperblockStripe address) :=
  inferInstanceAs (Decidable (∃ start ∈ superblockAddrs, _))

/-- Every superblock stripe starts at a multiple of the stripe length. -/
theorem stripeLength_dvd_superblockAddr
    {start : Nat} (member : start ∈ superblockAddrs) :
    stripeLength ∣ start := by
  revert start
  decide

/-- A prefix of an ascending list, cut by a condition that holds of all smaller numbers. -/
theorem mem_takeWhile_iff_of_sorted
    {numbers : List Nat} (sorted : numbers.Pairwise (· < ·)) {fits : Nat → Bool}
    (smaller : ∀ first second, first < second → fits second → fits first) (number : Nat) :
    number ∈ numbers.takeWhile fits ↔ number ∈ numbers ∧ fits number := by
  induction numbers with
  | nil => simp
  | cons first rest ih =>
    obtain ⟨before, sorted⟩ := List.pairwise_cons.mp sorted
    by_cases firstFits : fits first
    · rw [List.takeWhile_cons_of_pos firstFits, List.mem_cons, List.mem_cons, ih sorted,
        or_and_right]
      refine or_congr_left (and_iff_left_of_imp ?_).symm
      rintro rfl
      exact firstFits
    · rw [List.takeWhile_cons_of_neg firstFits, List.mem_cons]
      refine iff_of_false List.not_mem_nil ?_
      rintro ⟨rfl | inRest, numberFits⟩
      · exact firstFits numberFits
      · exact firstFits (smaller first number (before number inRest) numberFits)

/-! ## Cluster sizes -/

/--
A cluster size that the conversion admits: a power of two from one sector to
1 MiB.
-/
structure ClusterSize where
  exponent : Nat
  lower : 12 ≤ exponent
  upper : exponent ≤ 20
deriving DecidableEq

/-- The cluster size in bytes. -/
def ClusterSize.bytes (size : ClusterSize) : Nat :=
  2 ^ size.exponent

namespace ClusterSize

variable (size : ClusterSize)

theorem bytes_pos : 0 < size.bytes :=
  Nat.two_pow_pos _

theorem sectorSize_dvd : sectorSize ∣ size.bytes :=
  Nat.pow_dvd_pow 2 size.lower

theorem bytes_dvd_reservedArea : size.bytes ∣ reservedArea :=
  Nat.pow_dvd_pow 2 size.upper

theorem sectorSize_le : sectorSize ≤ size.bytes :=
  Nat.le_of_dvd size.bytes_pos size.sectorSize_dvd

theorem bytes_le : size.bytes ≤ reservedArea :=
  Nat.le_of_dvd (by decide) size.bytes_dvd_reservedArea

theorem bytes_dvd_dataChunkSize : size.bytes ∣ dataChunkSize :=
  size.bytes_dvd_reservedArea.trans (by decide)

/-- A full data chunk holds a multiple of 32 clusters. -/
theorem thirtyTwo_dvd_clusters : 32 ∣ dataChunkSize / size.bytes := by
  have exact_ : dataChunkSize = 2 ^ (27 - size.exponent) * size.bytes := by
    rw [ClusterSize.bytes, ← pow_add, Nat.sub_add_cancel (by have := size.upper; omega)]
    rfl
  rw [exact_, Nat.mul_div_cancel _ size.bytes_pos]
  have exponents : 5 ≤ 27 - size.exponent := by
    have := size.upper
    omega
  exact Nat.pow_dvd_pow 2 exponents

theorem clusters_pos : 0 < dataChunkSize / size.bytes :=
  Nat.div_pos
    (Nat.le_of_dvd (by decide) size.bytes_dvd_dataChunkSize) size.bytes_pos

theorem clusters_mul : dataChunkSize / size.bytes * size.bytes = dataChunkSize :=
  Nat.div_mul_cancel size.bytes_dvd_dataChunkSize

end ClusterSize

/-! ## Spaces and chunks -/

/-- A range of free bytes. -/
abbrev Space := Extent

/-- A Btrfs chunk with the list of its free virtual ranges. -/
structure Chunk where
  offset : Nat
  length : Nat
  diskStart : Nat
  type : Nat
  spaceList : List Space := []
  added : Bool := false
  used : Nat := 0
deriving DecidableEq, Repr

/-- The virtual range of a chunk. -/
def Chunk.virtualRange (chunk : Chunk) : Extent :=
  ⟨chunk.offset, chunk.length⟩

/-- The disk range of a chunk. -/
def Chunk.diskRange (chunk : Chunk) : Extent :=
  ⟨chunk.diskStart, chunk.length⟩

/-- The disk address is free in the chunk. -/
def Chunk.Free (chunk : Chunk) (address : Nat) : Prop :=
  Covers chunk.spaceList (address + chunkVirtOffset)

instance (chunk : Chunk) (address : Nat) : Decidable (chunk.Free address) :=
  inferInstanceAs (Decidable (Covers _ _))

/-! ## Errors -/

/-- Hexadecimal digits, as `{:x}` prints them. -/
def toHex (value : Nat) : String :=
  String.ofList (Nat.toDigits 16 value)

/-- What the conversion and the rollback throw. -/
inductive ConvertError where
  | couldNotInsert (objectid type offset : Nat)
  | noSpaceForChunk
  | noMetadataAddress
  | noDataAddress
  | fileNameNonResident
  | fileNameTruncated
  | assigningSpace
deriving DecidableEq, Repr

theorem eq_ok_of_toOption_eq_some
    {ε α : Type} {outcome : Except ε α} {value : α}
    (returned : outcome.toOption = some value) : outcome = .ok value := by
  cases outcome with
  | error failure => cases returned
  | ok result => exact congrArg Except.ok (Option.some.inj returned)

end Ntfs2Btrfs
