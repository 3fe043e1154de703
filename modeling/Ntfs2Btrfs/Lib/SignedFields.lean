import Ntfs2Btrfs.Lib.ByteStore

/-!
# Signed fields of variable width

A signed number in two's complement, as a little-endian field of a given
number of bytes.  A number fits every width from its minimal one on, and the
field that holds it widens back to the number modulo any larger power of two.
-/

namespace SignedFields

open ByteStore

/-- The number has a two's complement representation of `width` bytes. -/
def Fits (width : Nat) (value : Int) : Prop :=
  -(2 ^ (8 * width - 1) : Int) ≤ value ∧ value < 2 ^ (8 * width - 1)

instance (width : Nat) (value : Int) : Decidable (Fits width value) :=
  inferInstanceAs (Decidable (_ ∧ _))

theorem fits_natAbs_succ (value : Int) : Fits (value.natAbs + 1) value := by
  have large : value.natAbs < 2 ^ (8 * (value.natAbs + 1) - 1) :=
    Nat.lt_two_pow_self.trans_le (Nat.pow_le_pow_right (by decide) (by omega))
  have cast : (value.natAbs : Int) < 2 ^ (8 * (value.natAbs + 1) - 1) := by
    exact_mod_cast large
  constructor <;> omega

theorem exists_fits (value : Int) : ∃ width, 1 ≤ width ∧ Fits width value :=
  ⟨value.natAbs + 1, by omega, fits_natAbs_succ value⟩

/-- The least number of bytes, at least one, that represents the number. -/
def minWidth (value : Int) : Nat :=
  Nat.find (exists_fits value)

theorem minWidth_pos (value : Int) : 1 ≤ minWidth value :=
  (Nat.find_spec (exists_fits value)).1

theorem fits_minWidth (value : Int) : Fits (minWidth value) value :=
  (Nat.find_spec (exists_fits value)).2

theorem minWidth_le {width : Nat} {value : Int}
    (positive : 1 ≤ width) (fits : Fits width value) :
    minWidth value ≤ width :=
  Nat.find_min' (exists_fits value) ⟨positive, fits⟩

/-- The bits of the number in a field of `width` bytes, as an unsigned number. -/
def wrap (width : Nat) (value : Int) : Nat :=
  (value % (2 ^ (8 * width) : Nat)).toNat

/-- The field of `width` bytes that holds the number. -/
def encode (width : Nat) (value : Int) : Bytes :=
  le width (wrap width value)

@[simp]
theorem length_encode (width : Nat) (value : Int) :
    (encode width value).length = width :=
  length_le _ _

theorem wrap_lt (width : Nat) (value : Int) : wrap width value < 2 ^ (8 * width) := by
  have positive : 0 < 2 ^ (8 * width) := Nat.two_pow_pos _
  have upper := Int.emod_lt_of_pos value (by exact_mod_cast positive :
    (0 : Int) < (2 ^ (8 * width) : Nat))
  have lower := Int.emod_nonneg value (by exact_mod_cast positive.ne' :
    ((2 ^ (8 * width) : Nat) : Int) ≠ 0)
  rw [wrap]
  omega

theorem unle_encode (width : Nat) (value : Int) :
    unle (encode width value) = wrap width value := by
  refine unle_le_of_lt ?_
  rw [show (256 : Nat) = 2 ^ 8 from rfl, ← pow_mul]
  exact wrap_lt width value

/-- A field whose sign bit is clear holds the number itself. -/
theorem wrap_of_nonneg
    {width : Nat} {value : Int} (positive : 1 ≤ width) (fits : Fits width value)
    (nonneg : 0 ≤ value) :
    (wrap width value : Int) = value ∧ wrap width value < 2 ^ (8 * width - 1) := by
  have double : (2 : Int) ^ (8 * width) = 2 * 2 ^ (8 * width - 1) := by
    rw [← pow_succ', Nat.sub_add_cancel (by omega)]
  have upper := fits.2
  have equal : value % ((2 ^ (8 * width) : Nat) : Int) = value :=
    Int.emod_eq_of_lt nonneg (by push_cast; omega)
  rw [wrap, equal]
  have cast : ((value.toNat : Nat) : Int) < ((2 ^ (8 * width - 1) : Nat) : Int) := by
    push_cast
    omega
  exact ⟨Int.toNat_of_nonneg nonneg, by exact_mod_cast cast⟩

/-- A field whose sign bit is set holds the number plus the modulus of the field. -/
theorem wrap_of_neg
    {width : Nat} {value : Int} (positive : 1 ≤ width) (fits : Fits width value)
    (negative : value < 0) :
    (wrap width value : Int) = value + 2 ^ (8 * width) ∧
      2 ^ (8 * width - 1) ≤ wrap width value := by
  have double : (2 : Int) ^ (8 * width) = 2 * 2 ^ (8 * width - 1) := by
    rw [← pow_succ', Nat.sub_add_cancel (by omega)]
  have lower := fits.1
  have power : (0 : Int) < 2 ^ (8 * width - 1) := by positivity
  have equal : value % ((2 ^ (8 * width) : Nat) : Int) = value + 2 ^ (8 * width) := by
    rw [← Int.add_emod_right]
    push_cast
    exact Int.emod_eq_of_lt (by omega) (by omega)
  rw [wrap, equal]
  have nonneg : (0 : Int) ≤ value + 2 ^ (8 * width) := by omega
  have cast :
      ((2 ^ (8 * width - 1) : Nat) : Int) ≤
        (((value + 2 ^ (8 * width)).toNat : Nat) : Int) := by
    push_cast
    omega
  exact ⟨Int.toNat_of_nonneg nonneg, by exact_mod_cast cast⟩

end SignedFields
