import Ntfs2Btrfs.Lib.ByteStore

/-!
# CRC-32C

The table-driven checksum of the source, with the table given by the bitwise
division that generates it.
-/

namespace Ntfs2Btrfs

open ByteStore

/-- An entry of `crctable`: the remainder of a byte under the reflected polynomial. -/
def crctable (index : Nat) : Nat :=
  (List.range 8).foldl
    (fun rem _ => if rem % 2 = 1 then rem / 2 ^^^ 0x82f63b78 else rem / 2) index

/-- `calc_crc32c`: the remainder of a message, from a seed. -/
def calcCrc32c (seed : Nat) (message : Bytes) : Nat :=
  message.foldl
    (fun rem byte => crctable ((rem ^^^ byte.toNat) % 256) ^^^ rem / 256) seed

example : (List.range 4).map crctable =
    [0x00000000, 0xf26b8303, 0xe13b70f7, 0x1350f3f4] := by
  decide

theorem crctable_lt (index : Nat) (small : index < 2 ^ 32) :
    crctable index < 2 ^ 32 := by
  have general : ∀ (steps : List Nat) (rem : Nat), rem < 2 ^ 32 →
      steps.foldl
        (fun rem _ => if rem % 2 = 1 then rem / 2 ^^^ 0x82f63b78 else rem / 2)
        rem < 2 ^ 32 := by
    intro steps
    induction steps with
    | nil => exact fun _ bound => bound
    | cons first rest induction =>
        intro rem bound
        apply induction
        have half : rem / 2 < 2 ^ 32 := (Nat.div_le_self rem 2).trans_lt bound
        dsimp only
        split_ifs
        · exact Nat.xor_lt_two_pow half (by decide)
        · exact half
  exact general (List.range 8) index small

/-- A remainder fits 32 bits. -/
theorem calcCrc32c_lt (seed : Nat) (message : Bytes) (small : seed < 2 ^ 32) :
    calcCrc32c seed message < 2 ^ 32 := by
  induction message generalizing seed with
  | nil => exact small
  | cons byte rest induction =>
      apply induction
      apply Nat.xor_lt_two_pow
      · exact crctable_lt _ ((Nat.mod_lt _ (by decide)).trans (by decide))
      · exact (Nat.div_le_self seed 256).trans_lt small

end Ntfs2Btrfs
