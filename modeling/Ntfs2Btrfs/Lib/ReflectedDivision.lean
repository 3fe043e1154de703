import Ntfs2Btrfs.Lib.ByteStore
import Mathlib.Data.Nat.Bitwise
import Mathlib.Tactic.SplitIfs

/-!
# Reflected polynomial division

The remainder of a polynomial over two elements, with its bits in reverse: a step
divides by the variable, and subtracts the divisor when a bit falls out.  The steps
are additive, so the bits of a message may be brought in one after the other, or as
many at once as there are steps.
-/

namespace ReflectedDivision

open ByteStore

/-- One step of the division. -/
def divStep (poly value : Nat) : Nat :=
  if value % 2 = 1 then value / 2 ^^^ poly else value / 2

/-- A number of steps. -/
def remainder (poly : Nat) : Nat → Nat → Nat
  | 0, value => value
  | steps + 1, value => remainder poly steps (divStep poly value)

/-- The step for one bit of a message: the divisor is subtracted when the bits differ. -/
def feedBit (poly rem : Nat) (bit : Bool) : Nat :=
  if (rem % 2 = 1 ↔ bit = true) then rem / 2 else rem / 2 ^^^ poly

/-- The bits of a number, the lowest one first. -/
def bitsOf : Nat → Nat → List Bool
  | 0, _ => []
  | width + 1, value => decide (value % 2 = 1) :: bitsOf width (value / 2)

/-- The bits of a message, each byte from its lowest bit on. -/
def messageBits (message : Bytes) : List Bool :=
  message.flatMap fun byte => bitsOf 8 byte.toNat

/-- The remainder of a message, bit by bit. -/
def messageRemainder (poly seed : Nat) (message : Bytes) : Nat :=
  (messageBits message).foldl (feedBit poly) seed

/-! ## Steps are additive -/

theorem divStep_xor (poly left right : Nat) :
    divStep poly (left ^^^ right) = divStep poly left ^^^ divStep poly right := by
  rw [divStep, divStep, divStep, Nat.xor_div_two]
  by_cases first : left % 2 = 1
  · by_cases second : right % 2 = 1
    · rw [if_neg (by rw [Nat.xor_mod_two_eq_one]; simp [first, second]), if_pos first,
        if_pos second, Nat.xor_assoc, Nat.xor_comm (right / 2) poly, ← Nat.xor_assoc poly,
        Nat.xor_self, Nat.zero_xor]
    · rw [if_pos (by rw [Nat.xor_mod_two_eq_one]; simp [first, second]), if_pos first,
        if_neg second, Nat.xor_assoc, Nat.xor_assoc, Nat.xor_comm poly]
  · by_cases second : right % 2 = 1
    · rw [if_pos (by rw [Nat.xor_mod_two_eq_one]; simp [first, second]), if_neg first,
        if_pos second, Nat.xor_assoc]
    · rw [if_neg (by rw [Nat.xor_mod_two_eq_one]; simp [first, second]), if_neg first,
        if_neg second]

/-- A step on a number whose lowest bit is clear is a division. -/
theorem divStep_even (poly value : Nat) : divStep poly (2 * value) = value := by
  rw [divStep, if_neg (by omega)]
  omega

theorem remainder_xor (poly steps : Nat) :
    ∀ left right, remainder poly steps (left ^^^ right) =
      remainder poly steps left ^^^ remainder poly steps right := by
  induction steps with
  | zero => exact fun left right => rfl
  | succ steps ih =>
    intro left right
    rw [remainder, divStep_xor, ih]
    rfl

theorem remainder_add (poly first second value : Nat) :
    remainder poly (first + second) value =
      remainder poly second (remainder poly first value) := by
  induction first generalizing value with
  | zero => rw [Nat.zero_add, remainder]
  | succ first ih => rw [Nat.succ_add, remainder, ih, remainder]

/-- As many clear bits as steps fall out. -/
theorem remainder_mul_two_pow (poly steps value : Nat) :
    remainder poly steps (2 ^ steps * value) = value := by
  induction steps with
  | zero => rw [Nat.pow_zero, Nat.one_mul, remainder]
  | succ steps ih => rw [remainder, Nat.pow_succ', Nat.mul_assoc, divStep_even, ih]

/-- The bits above the steps come down unchanged. -/
theorem remainder_above
    {steps low : Nat} (small : low < 2 ^ steps) (poly high : Nat) :
    remainder poly steps (2 ^ steps * high + low) = remainder poly steps low ^^^ high := by
  have apart : 2 ^ steps * high + low = 2 ^ steps * high ^^^ low := by
    refine Nat.eq_of_testBit_eq fun index => ?_
    rw [Nat.testBit_two_pow_mul_add high small, Nat.testBit_xor, Nat.testBit_two_pow_mul]
    by_cases below : index < steps
    · simp [below, Nat.not_le_of_lt below]
    · have clear : low < 2 ^ index :=
        small.trans_le (Nat.pow_le_pow_right (by decide) (Nat.le_of_not_lt below))
      simp [below, Nat.le_of_not_lt below, Nat.testBit_lt_two_pow clear]
  rw [apart, remainder_xor, remainder_mul_two_pow, Nat.xor_comm]

/-- The steps for a number take its low bits, and the rest comes down. -/
theorem remainder_eq (poly steps value : Nat) :
    remainder poly steps value =
      remainder poly steps (value % 2 ^ steps) ^^^ value / 2 ^ steps := by
  have split := remainder_above (Nat.mod_lt value (Nat.two_pow_pos steps)) poly
    (value / 2 ^ steps)
  rwa [Nat.div_add_mod] at split

theorem remainder_lt
    {poly width : Nat} (polySmall : poly < 2 ^ width) (steps : Nat) :
    ∀ value, value < 2 ^ (width + steps) → remainder poly steps value < 2 ^ width := by
  induction steps with
  | zero => exact fun value small => small
  | succ steps ih =>
    intro value small
    refine ih _ ?_
    have half : value / 2 < 2 ^ (width + steps) := by
      rw [← Nat.add_assoc, Nat.pow_succ] at small
      omega
    have wide : 2 ^ width ≤ 2 ^ (width + steps) :=
      Nat.pow_le_pow_right (by decide) (Nat.le_add_right _ _)
    rw [divStep]
    split_ifs
    · exact Nat.xor_lt_two_pow half (polySmall.trans_le wide)
    · exact half

/-! ## Bits -/

/-- Feeding a bit is a step on the sum of the remainder and a number with that bit. -/
theorem feedBit_eq (poly rem value : Nat) :
    feedBit poly rem (decide (value % 2 = 1)) ^^^ value / 2 =
      divStep poly (rem ^^^ value) := by
  simp only [feedBit, divStep, Nat.xor_div_two, decide_eq_true_eq]
  by_cases same : rem % 2 = 1 ↔ value % 2 = 1
  · rw [if_pos same, if_neg (by rwa [Nat.xor_mod_two_eq_one, not_not])]
  · rw [if_neg same, if_pos (by rwa [Nat.xor_mod_two_eq_one]), Nat.xor_assoc,
      Nat.xor_comm poly, ← Nat.xor_assoc]

/-- The bits of a number may be brought in at once. -/
theorem foldl_feedBit (poly width : Nat) :
    ∀ {value} rem, value < 2 ^ width →
      (bitsOf width value).foldl (feedBit poly) rem =
        remainder poly width (rem ^^^ value) := by
  induction width with
  | zero =>
    intro value rem small
    obtain rfl : value = 0 := by omega
    rw [bitsOf, List.foldl_nil, remainder, Nat.xor_zero]
  | succ width ih =>
    intro value rem small
    have half : value / 2 < 2 ^ width := by
      rw [Nat.pow_succ] at small
      omega
    rw [bitsOf, List.foldl_cons, ih _ half, feedBit_eq, remainder]

theorem bitsOf_add (first second : Nat) :
    ∀ value, bitsOf (first + second) value =
      bitsOf first (value % 2 ^ first) ++ bitsOf second (value / 2 ^ first) := by
  induction first with
  | zero =>
    intro value
    rw [Nat.zero_add, Nat.pow_zero, Nat.div_one, bitsOf, List.nil_append]
  | succ first ih =>
    intro value
    rw [Nat.succ_add, bitsOf, bitsOf, ih, Nat.pow_succ', Nat.mod_mul_right_div_self,
      Nat.mod_mul_right_mod, Nat.div_div_eq_div_mul, List.cons_append]

theorem messageBits_cons (byte : UInt8) (rest : Bytes) :
    messageBits (byte :: rest) = bitsOf 8 byte.toNat ++ messageBits rest :=
  List.flatMap_cons

/-- The bits of a message are those of its number. -/
theorem bitsOf_unle (message : Bytes) :
    bitsOf (8 * message.length) (unle message) = messageBits message := by
  induction message with
  | nil => rfl
  | cons byte rest ih =>
    have small := byte.toNat_lt
    rw [List.length_cons, Nat.mul_succ, Nat.add_comm, bitsOf_add, unle, messageBits_cons]
    have low : (byte.toNat + 256 * unle rest) % 2 ^ 8 = byte.toNat := by omega
    have high : (byte.toNat + 256 * unle rest) / 2 ^ 8 = unle rest := by omega
    rw [low, high, ih]

/-! ## Messages -/

theorem messageRemainder_append (poly seed : Nat) (front back : Bytes) :
    messageRemainder poly seed (front ++ back) =
      messageRemainder poly (messageRemainder poly seed front) back := by
  rw [messageRemainder, messageBits, List.flatMap_append, List.foldl_append]
  rfl

/-- The bytes of a message may be brought in at once, as a little-endian number. -/
theorem messageRemainder_eq (poly seed : Nat) (message : Bytes) :
    messageRemainder poly seed message =
      remainder poly (8 * message.length) (seed ^^^ unle message) := by
  have small : unle message < 2 ^ (8 * message.length) := by
    rw [Nat.pow_mul]
    exact unle_lt message
  rw [messageRemainder, ← bitsOf_unle, foldl_feedBit poly _ seed small]

/-- The remainder of a message has as many bits as the divisor. -/
theorem messageRemainder_lt
    {poly width seed : Nat} (polySmall : poly < 2 ^ width) (seedSmall : seed < 2 ^ width)
    (message : Bytes) : messageRemainder poly seed message < 2 ^ width := by
  rw [messageRemainder_eq]
  refine remainder_lt polySmall _ _ (Nat.xor_lt_two_pow ?_ ?_)
  · exact seedSmall.trans_le (Nat.pow_le_pow_right (by decide) (Nat.le_add_right _ _))
  · have small : unle message < 2 ^ (8 * message.length) := by
      rw [Nat.pow_mul]
      exact unle_lt message
    exact small.trans_le (Nat.pow_le_pow_right (by decide) (Nat.le_add_left _ _))

end ReflectedDivision
