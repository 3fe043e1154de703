import Ntfs2Btrfs.Crc32c
import Ntfs2Btrfs.Lib.ReflectedDivision

/-!
# CRC-32C in registers

The two functions of the assembly: one takes a byte at a time and looks a table up,
the other one gives eight, four, two and single bytes to an instruction.  Registers
have 64 bits, and the seed comes in the lower half of one.

Both are the division of the message by the polynomial, bit by bit.
-/

namespace Ntfs2Btrfs

open ByteStore
open ReflectedDivision

/-- The polynomial of CRC-32C, with its bits in reverse. -/
def crcPolynomial : Nat := 0x82f63b78

/-! ## The code -/

/-- `crctable`, as it stands in the source. -/
def crctableEntries : List Nat := [
    0x00000000, 0xf26b8303, 0xe13b70f7, 0x1350f3f4, 0xc79a971f, 0x35f1141c, 0x26a1e7e8, 0xd4ca64eb,
    0x8ad958cf, 0x78b2dbcc, 0x6be22838, 0x9989ab3b, 0x4d43cfd0, 0xbf284cd3, 0xac78bf27, 0x5e133c24,
    0x105ec76f, 0xe235446c, 0xf165b798, 0x030e349b, 0xd7c45070, 0x25afd373, 0x36ff2087, 0xc494a384,
    0x9a879fa0, 0x68ec1ca3, 0x7bbcef57, 0x89d76c54, 0x5d1d08bf, 0xaf768bbc, 0xbc267848, 0x4e4dfb4b,
    0x20bd8ede, 0xd2d60ddd, 0xc186fe29, 0x33ed7d2a, 0xe72719c1, 0x154c9ac2, 0x061c6936, 0xf477ea35,
    0xaa64d611, 0x580f5512, 0x4b5fa6e6, 0xb93425e5, 0x6dfe410e, 0x9f95c20d, 0x8cc531f9, 0x7eaeb2fa,
    0x30e349b1, 0xc288cab2, 0xd1d83946, 0x23b3ba45, 0xf779deae, 0x05125dad, 0x1642ae59, 0xe4292d5a,
    0xba3a117e, 0x4851927d, 0x5b016189, 0xa96ae28a, 0x7da08661, 0x8fcb0562, 0x9c9bf696, 0x6ef07595,
    0x417b1dbc, 0xb3109ebf, 0xa0406d4b, 0x522bee48, 0x86e18aa3, 0x748a09a0, 0x67dafa54, 0x95b17957,
    0xcba24573, 0x39c9c670, 0x2a993584, 0xd8f2b687, 0x0c38d26c, 0xfe53516f, 0xed03a29b, 0x1f682198,
    0x5125dad3, 0xa34e59d0, 0xb01eaa24, 0x42752927, 0x96bf4dcc, 0x64d4cecf, 0x77843d3b, 0x85efbe38,
    0xdbfc821c, 0x2997011f, 0x3ac7f2eb, 0xc8ac71e8, 0x1c661503, 0xee0d9600, 0xfd5d65f4, 0x0f36e6f7,
    0x61c69362, 0x93ad1061, 0x80fde395, 0x72966096, 0xa65c047d, 0x5437877e, 0x4767748a, 0xb50cf789,
    0xeb1fcbad, 0x197448ae, 0x0a24bb5a, 0xf84f3859, 0x2c855cb2, 0xdeeedfb1, 0xcdbe2c45, 0x3fd5af46,
    0x7198540d, 0x83f3d70e, 0x90a324fa, 0x62c8a7f9, 0xb602c312, 0x44694011, 0x5739b3e5, 0xa55230e6,
    0xfb410cc2, 0x092a8fc1, 0x1a7a7c35, 0xe811ff36, 0x3cdb9bdd, 0xceb018de, 0xdde0eb2a, 0x2f8b6829,
    0x82f63b78, 0x709db87b, 0x63cd4b8f, 0x91a6c88c, 0x456cac67, 0xb7072f64, 0xa457dc90, 0x563c5f93,
    0x082f63b7, 0xfa44e0b4, 0xe9141340, 0x1b7f9043, 0xcfb5f4a8, 0x3dde77ab, 0x2e8e845f, 0xdce5075c,
    0x92a8fc17, 0x60c37f14, 0x73938ce0, 0x81f80fe3, 0x55326b08, 0xa759e80b, 0xb4091bff, 0x466298fc,
    0x1871a4d8, 0xea1a27db, 0xf94ad42f, 0x0b21572c, 0xdfeb33c7, 0x2d80b0c4, 0x3ed04330, 0xccbbc033,
    0xa24bb5a6, 0x502036a5, 0x4370c551, 0xb11b4652, 0x65d122b9, 0x97baa1ba, 0x84ea524e, 0x7681d14d,
    0x2892ed69, 0xdaf96e6a, 0xc9a99d9e, 0x3bc21e9d, 0xef087a76, 0x1d63f975, 0x0e330a81, 0xfc588982,
    0xb21572c9, 0x407ef1ca, 0x532e023e, 0xa145813d, 0x758fe5d6, 0x87e466d5, 0x94b49521, 0x66df1622,
    0x38cc2a06, 0xcaa7a905, 0xd9f75af1, 0x2b9cd9f2, 0xff56bd19, 0x0d3d3e1a, 0x1e6dcdee, 0xec064eed,
    0xc38d26c4, 0x31e6a5c7, 0x22b65633, 0xd0ddd530, 0x0417b1db, 0xf67c32d8, 0xe52cc12c, 0x1747422f,
    0x49547e0b, 0xbb3ffd08, 0xa86f0efc, 0x5a048dff, 0x8ecee914, 0x7ca56a17, 0x6ff599e3, 0x9d9e1ae0,
    0xd3d3e1ab, 0x21b862a8, 0x32e8915c, 0xc083125f, 0x144976b4, 0xe622f5b7, 0xf5720643, 0x07198540,
    0x590ab964, 0xab613a67, 0xb831c993, 0x4a5a4a90, 0x9e902e7b, 0x6cfbad78, 0x7fab5e8c, 0x8dc0dd8f,
    0xe330a81a, 0x115b2b19, 0x020bd8ed, 0xf0605bee, 0x24aa3f05, 0xd6c1bc06, 0xc5914ff2, 0x37faccf1,
    0x69e9f0d5, 0x9b8273d6, 0x88d28022, 0x7ab90321, 0xae7367ca, 0x5c18e4c9, 0x4f48173d, 0xbd23943e,
    0xf36e6f75, 0x0105ec76, 0x12551f82, 0xe03e9c81, 0x34f4f86a, 0xc69f7b69, 0xd5cf889d, 0x27a40b9e,
    0x79b737ba, 0x8bdcb4b9, 0x988c474d, 0x6ae7c44e, 0xbe2da0a5, 0x4c4623a6, 0x5f16d052, 0xad7d5351
  ]

/-- The round of `calc_crc32c_sw`: `rax` is the remainder, `r10b` the byte. -/
def crcSwRound (rax : BitVec 64) (r10b : UInt8) : BitVec 64 :=
  let rcx := rax >>> 8
  -- the byte changes `al` only
  let rax := rax ^^^ r10b.toBitVec.setWidth 64
  let rax := (rax &&& 255) <<< 2
  let eax := BitVec.ofNat 32 (crctableEntries.getD (rax.toNat / 4) 0)
  eax.setWidth 64 ^^^ rcx

/-- `calc_crc32c_sw`, with the seed in `rcx`. -/
def calcCrc32cSw (rcx : BitVec 64) (message : Bytes) : BitVec 64 :=
  message.foldl crcSwRound rcx

/--
The instruction `crc32`: the operand is brought into the lower half of the register,
and the upper half is cleared.
-/
def crc32 (register : BitVec 64) (operand : Bytes) : BitVec 64 :=
  (BitVec.ofNat 32 (remainder crcPolynomial (8 * operand.length)
    ((register.setWidth 32).toNat ^^^ unle operand))).setWidth 64

/-- `crchw_loop`: eight bytes at a time. -/
def crcHwLoop (rax : BitVec 64) (message : Bytes) : BitVec 64 × Bytes :=
  if 8 ≤ message.length then crcHwLoop (crc32 rax (message.take 8)) (message.drop 8)
  else (rax, message)
termination_by message.length
decreasing_by
  rw [List.length_drop]
  omega

/-- A step of `crchw_stragglers` and `crchw_stragglers2`: so many bytes, if there are. -/
def crcHwStraggler (width : Nat) (state : BitVec 64 × Bytes) : BitVec 64 × Bytes :=
  if width ≤ state.2.length then
    (crc32 state.1 (state.2.take width), state.2.drop width)
  else state

/-- `calc_crc32c_hw`, with the seed in `rcx`. -/
def calcCrc32cHw (rcx : BitVec 64) (message : Bytes) : BitVec 64 :=
  let state := crcHwLoop rcx message
  let state := crcHwStraggler 4 state
  let state := crcHwStraggler 2 state
  -- `crchw_stragglers3`: byte by byte
  state.2.foldl (fun rax byte => crc32 rax [byte]) state.1

/-! ## The table is the division of a byte -/

theorem foldl_divStep (poly : Nat) (steps : List Nat) :
    ∀ value, steps.foldl (fun rem _ => divStep poly rem) value =
      remainder poly steps.length value := by
  induction steps with
  | nil => exact fun value => rfl
  | cons first rest ih => exact fun value => ih (divStep poly value)

theorem crctable_eq (index : Nat) : crctable index = remainder crcPolynomial 8 index :=
  foldl_divStep crcPolynomial (List.range 8) index

/-- Every entry of the table is the remainder of its position. -/
theorem crctableEntries_eq :
    ∀ index < 256, crctableEntries.getD index 0 = crctable index := by
  decide +kernel

/-- The remainder of a message, from a seed. -/
def crcBits (seed : Nat) (message : Bytes) : Nat :=
  messageRemainder crcPolynomial seed message

theorem crcBits_lt {seed : Nat} (small : seed < 2 ^ 32) (message : Bytes) :
    crcBits seed message < 2 ^ 32 :=
  messageRemainder_lt (by decide) small message

theorem crcBits_append (seed : Nat) (front back : Bytes) :
    crcBits seed (front ++ back) = crcBits (crcBits seed front) back :=
  messageRemainder_append crcPolynomial seed front back

/-- A byte is an entry of the table, and the rest of the remainder comes down. -/
theorem crcBits_byte (rem : Nat) (byte : UInt8) :
    crcBits rem [byte] = crctable ((rem ^^^ byte.toNat) % 256) ^^^ rem / 256 := by
  have small := byte.toNat_lt
  have rest : (rem ^^^ byte.toNat) / 2 ^ 8 = rem / 2 ^ 8 := by
    rw [Nat.xor_div_two_pow, Nat.div_eq_of_lt small, Nat.xor_zero]
  rw [crcBits, messageRemainder_eq, List.length_singleton, unle, unle, Nat.mul_zero,
    Nat.add_zero, Nat.mul_one, remainder_eq, rest, crctable_eq]
  rfl

/-- The checksum of the other machines is the same. -/
theorem calcCrc32c_eq_crcBits (seed : Nat) (message : Bytes) :
    calcCrc32c seed message = crcBits seed message := by
  induction message generalizing seed with
  | nil => rfl
  | cons byte rest ih =>
    have first := crcBits_append seed [byte] rest
    rw [List.singleton_append, crcBits_byte] at first
    rw [first, ← ih]
    rfl

/-! ## Registers -/

section Registers

variable {register : BitVec 64}

theorem crcSwRound_toNat (register : BitVec 64) (byte : UInt8) :
    (crcSwRound register byte).toNat = crcBits register.toNat [byte] := by
  have index : (register.toNat ^^^ byte.toNat) % 256 < 256 := Nat.mod_lt _ (by decide)
  have entry := crctable_lt ((register.toNat ^^^ byte.toNat) % 256)
    (index.trans (by decide))
  have position : (((register ^^^ byte.toBitVec.setWidth 64) &&& 255) <<< 2).toNat / 4 =
      (register.toNat ^^^ byte.toNat) % 256 := by
    have byteSmall := byte.toNat_lt
    have wide : byte.toNat % 2 ^ 64 = byte.toNat := Nat.mod_eq_of_lt (by omega)
    have mask : (255 : BitVec 64).toNat = 2 ^ 8 - 1 := rfl
    rw [BitVec.toNat_shiftLeft, BitVec.toNat_and, BitVec.toNat_xor, BitVec.toNat_setWidth,
      UInt8.toNat_toBitVec, wide, mask, Nat.and_two_pow_sub_one_eq_mod, Nat.shiftLeft_eq,
      Nat.mod_eq_of_lt (by omega)]
    exact Nat.mul_div_cancel _ (by decide)
  rw [crcBits_byte, crcSwRound, position, crctableEntries_eq _ index, BitVec.toNat_xor,
    BitVec.toNat_setWidth, BitVec.toNat_ofNat, BitVec.toNat_ushiftRight,
    Nat.shiftRight_eq_div_pow, Nat.mod_eq_of_lt entry, Nat.mod_eq_of_lt (by omega)]

/-- The instruction brings its operand in, byte by byte. -/
theorem crc32_toNat (small : register.toNat < 2 ^ 32) (operand : Bytes) :
    (crc32 register operand).toNat = crcBits register.toNat operand := by
  have bound := crcBits_lt small operand
  rw [crcBits, messageRemainder_eq] at bound ⊢
  rw [crc32, BitVec.toNat_setWidth, BitVec.toNat_ofNat, BitVec.toNat_setWidth,
    Nat.mod_eq_of_lt small, Nat.mod_eq_of_lt bound, Nat.mod_eq_of_lt (by omega)]

/-- The remainder of what is left of a message is that of the message. -/
def Remains (rem : Nat) (state : BitVec 64 × Bytes) : Prop :=
  state.1.toNat < 2 ^ 32 ∧ crcBits state.1.toNat state.2 = rem

/-- A number of bytes given to the instruction leaves the remainder of the message. -/
theorem remains_crc32
    {rem : Nat} {message : Bytes} (remains : Remains rem (register, message)) (width : Nat) :
    Remains rem (crc32 register (message.take width), message.drop width) := by
  obtain ⟨small, value⟩ := remains
  have step := crc32_toNat small (message.take width)
  refine ⟨?_, ?_⟩
  · rw [step]
    exact crcBits_lt small _
  · dsimp only
    rw [step, ← crcBits_append, List.take_append_drop, value]

theorem remains_crcHwLoop
    {rem : Nat} (register : BitVec 64) (message : Bytes)
    (remains : Remains rem (register, message)) :
    Remains rem (crcHwLoop register message) := by
  fun_induction crcHwLoop register message with
  | case1 register message long ih => exact ih (remains_crc32 remains 8)
  | case2 register message short => exact remains

theorem remains_crcHwStraggler
    {rem : Nat} {state : BitVec 64 × Bytes} (remains : Remains rem state) (width : Nat) :
    Remains rem (crcHwStraggler width state) := by
  rw [crcHwStraggler]
  split_ifs
  · exact remains_crc32 remains width
  · exact remains

/-- A loop over bytes is the division where each round is. -/
theorem foldl_toNat
    {round : BitVec 64 → UInt8 → BitVec 64}
    (divides : ∀ register : BitVec 64, register.toNat < 2 ^ 32 → ∀ byte,
      (round register byte).toNat = crcBits register.toNat [byte]) (message : Bytes) :
    ∀ {register : BitVec 64}, register.toNat < 2 ^ 32 →
      (message.foldl round register).toNat = crcBits register.toNat message := by
  induction message with
  | nil => exact fun _ => rfl
  | cons byte rest ih =>
    intro register small
    have first := divides register small byte
    have bound := crcBits_lt small [byte]
    rw [← first] at bound
    rw [List.foldl_cons, ih bound, first, ← crcBits_append, List.singleton_append]

theorem calcCrc32cSw_toNat (small : register.toNat < 2 ^ 32) (message : Bytes) :
    (calcCrc32cSw register message).toNat = crcBits register.toNat message :=
  foldl_toNat (fun register _ => crcSwRound_toNat register) message small

theorem calcCrc32cHw_toNat (small : register.toNat < 2 ^ 32) (message : Bytes) :
    (calcCrc32cHw register message).toNat = crcBits register.toNat message := by
  have start : Remains (crcBits register.toNat message) (register, message) := ⟨small, rfl⟩
  obtain ⟨below, value⟩ := remains_crcHwStraggler (remains_crcHwStraggler
    (remains_crcHwLoop register message start) 4) 2
  rw [calcCrc32cHw, foldl_toNat (fun _ bound byte => crc32_toNat bound [byte]) _ below, value]

end Registers

/-! ## Both functions are the division -/

/--
For every seed, zero-extended, and every message both functions return the remainder
bit by bit, zero-extended, as the function for other machines does.  So a message may
be processed in two calls.
-/
theorem calcCrc32c_agree (seed : BitVec 32) (message : Bytes) :
    calcCrc32c seed.toNat message = crcBits seed.toNat message ∧
      calcCrc32cSw (seed.setWidth 64) message =
        (BitVec.ofNat 32 (crcBits seed.toNat message)).setWidth 64 ∧
      calcCrc32cHw (seed.setWidth 64) message =
        (BitVec.ofNat 32 (crcBits seed.toNat message)).setWidth 64 ∧
      ∀ more,
        calcCrc32cSw (calcCrc32cSw (seed.setWidth 64) message) more =
            calcCrc32cSw (seed.setWidth 64) (message ++ more) ∧
          calcCrc32cHw (calcCrc32cHw (seed.setWidth 64) message) more =
            calcCrc32cHw (seed.setWidth 64) (message ++ more) := by
  have seedSmall := seed.isLt
  have extended : (seed.setWidth 64).toNat = seed.toNat := by
    rw [BitVec.toNat_setWidth, Nat.mod_eq_of_lt (by omega)]
  have small : (seed.setWidth 64).toNat < 2 ^ 32 := by rwa [extended]
  have bound := crcBits_lt seedSmall message
  have value : ((BitVec.ofNat 32 (crcBits seed.toNat message)).setWidth 64).toNat =
      crcBits seed.toNat message := by
    rw [BitVec.toNat_setWidth, BitVec.toNat_ofNat, Nat.mod_eq_of_lt bound,
      Nat.mod_eq_of_lt (by omega)]
  have sw := calcCrc32cSw_toNat small message
  have hw := calcCrc32cHw_toNat small message
  rw [extended] at sw hw
  refine ⟨calcCrc32c_eq_crcBits _ _, ?_, ?_, fun more => ⟨?_, ?_⟩⟩
  · exact BitVec.eq_of_toNat_eq (sw.trans value.symm)
  · exact BitVec.eq_of_toNat_eq (hw.trans value.symm)
  · refine BitVec.eq_of_toNat_eq ?_
    rw [calcCrc32cSw_toNat (by rwa [sw]), sw, calcCrc32cSw_toNat small, extended,
      crcBits_append]
  · refine BitVec.eq_of_toNat_eq ?_
    rw [calcCrc32cHw_toNat (by rwa [hw]), hw, calcCrc32cHw_toNat small, extended,
      crcBits_append]

end Ntfs2Btrfs
