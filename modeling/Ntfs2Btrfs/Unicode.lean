import Ntfs2Btrfs.Lib.ByteStore
import Ntfs2Btrfs.Lib.PrefixCode
import Mathlib.Data.Nat.Bitwise
import Mathlib.Tactic.IntervalCases
import Mathlib.Tactic.SplitIfs

/-!
# Names in UTF-16 and UTF-8

`utf16_to_utf8` computes the length of its result first and then writes into a
buffer of that length; `fix_truncated_utf8` repairs a name that was cut in the
middle of a sequence.  Both are related to the list of code points which the
transcoder sees in a name: a surrogate without a partner is read as U+FFFD, and
the two halves of a pair are joined by `0x10000 |`.
-/

namespace Ntfs2Btrfs

open ByteStore
open PrefixCode

/-! ## The code -/

/-- The second unit completes a surrogate pair in the test of the source. -/
def CompletesPair (unit : UInt16) : Prop :=
  unit.toNat &&& 0xdc00 = 0xdc00

instance (unit : UInt16) : Decidable (CompletesPair unit) :=
  inferInstanceAs (Decidable (_ = _))

/-- The code point `utf16_to_utf8_span` forms from a pair. -/
def pairPoint (high low : UInt16) : Nat :=
  0x10000 ||| ((high.toNat &&& (0xffff ^^^ 0xd800)) <<< 10) |||
    (low.toNat &&& (0xffff ^^^ 0xdc00))

/-- `utf16_to_utf8_len`. -/
def utf16ToUtf8Len : List UInt16 → Nat
  | [] => 0
  | unit :: rest =>
      if unit.toNat < 0x80 then 1 + utf16ToUtf8Len rest
      else if unit.toNat < 0x800 then 2 + utf16ToUtf8Len rest
      else if unit.toNat < 0xd800 then 3 + utf16ToUtf8Len rest
      else if unit.toNat < 0xdc00 then
        match rest with
        | [] => 3
        | next :: others =>
            if CompletesPair next then 4 + utf16ToUtf8Len others
            else 3 + utf16ToUtf8Len (next :: others)
      else 3 + utf16ToUtf8Len rest

/-- The sequence of a unit below `0x80`. -/
def sequence1 (point : Nat) : Bytes :=
  [UInt8.ofNat point]

/-- The sequence of a unit below `0x800`. -/
def sequence2 (point : Nat) : Bytes :=
  [UInt8.ofNat (0xc0 ||| (point >>> 6)), UInt8.ofNat (0x80 ||| (point &&& 0x3f))]

/-- The sequence of any other unit. -/
def sequence3 (point : Nat) : Bytes :=
  [UInt8.ofNat (0xe0 ||| (point >>> 12)),
    UInt8.ofNat (0x80 ||| ((point >>> 6) &&& 0x3f)),
    UInt8.ofNat (0x80 ||| (point &&& 0x3f))]

/-- The sequence of a surrogate pair. -/
def sequence4 (point : Nat) : Bytes :=
  [UInt8.ofNat (0xf0 ||| (point >>> 18)),
    UInt8.ofNat (0x80 ||| ((point >>> 12) &&& 0x3f)),
    UInt8.ofNat (0x80 ||| ((point >>> 6) &&& 0x3f)),
    UInt8.ofNat (0x80 ||| (point &&& 0x3f))]

/-- U+FFFD, written for a surrogate without a partner. -/
def replacement : Bytes := [0xef, 0xbf, 0xbd]

/-- Write a sequence, and return when the buffer is full. -/
def writeSequence (bytes : Bytes) (room : Nat) (more : Nat → Bytes) : Bytes :=
  if bytes.length < room then bytes ++ more (room - bytes.length)
  else bytes.take room

/-- `utf16_to_utf8_span`, on a buffer with some room. -/
def utf16ToUtf8Span : List UInt16 → Nat → Bytes
  | [], _ => []
  | unit :: rest, room =>
      if unit.toNat < 0x80 then
        writeSequence (sequence1 unit.toNat) room (utf16ToUtf8Span rest)
      else if unit.toNat < 0x800 then
        writeSequence (sequence2 unit.toNat) room (utf16ToUtf8Span rest)
      else if unit.toNat < 0xd800 then
        writeSequence (sequence3 unit.toNat) room (utf16ToUtf8Span rest)
      else if unit.toNat < 0xdc00 then
        match rest with
        | [] => writeSequence replacement room fun _ => []
        | next :: others =>
            if CompletesPair next then
              writeSequence (sequence4 (pairPoint unit next)) room
                (utf16ToUtf8Span others)
            else
              writeSequence replacement room (utf16ToUtf8Span (next :: others))
      else if unit.toNat < 0xe000 then
        writeSequence replacement room (utf16ToUtf8Span rest)
      else
        writeSequence (sequence3 unit.toNat) room (utf16ToUtf8Span rest)

/-- `utf16_to_utf8`: the buffer is filled with zeros before it is written. -/
def utf16ToUtf8 (name : List UInt16) : Bytes :=
  let length := utf16ToUtf8Len name
  let written := utf16ToUtf8Span name length
  written ++ List.replicate (length - written.length) 0

/-- The byte that stands some places before the end of a string. -/
def fromEnd (s : Bytes) (places : Nat) : Nat :=
  (s.getD (s.length - places) 0).toNat

/-- `fix_truncated_utf8`. -/
def fixTruncatedUtf8 (s : Bytes) : Bytes :=
  if fromEnd s 1 &&& 0x80 = 0 then s -- one-byte sequence
  else if fromEnd s 1 &&& 0xc0 = 0xc0 then s.dropLast
  else if fromEnd s 2 &&& 0xe0 = 0xd0 then s -- meant for a two-byte sequence
  else if fromEnd s 2 &&& 0xe0 = 0xe0 then s.dropLast.dropLast
  else if fromEnd s 3 &&& 0xf0 = 0xe0 then s -- full three-byte sequence
  else if fromEnd s 3 &&& 0xf0 = 0xf0 then s.dropLast.dropLast.dropLast
  else s

/-- The name `add_inode` makes of a name in UTF-16. -/
def linkName (name : List UInt16) : Bytes :=
  let name2 := utf16ToUtf8 name
  if name2.length > 255 then fixTruncatedUtf8 (name2.take 255) else name2

/-! ## Code points -/

/-- The code points which the transcoder sees in a name. -/
def seenPoints : List UInt16 → List Nat
  | [] => []
  | unit :: rest =>
      if unit.toNat < 0xd800 then unit.toNat :: seenPoints rest
      else if unit.toNat < 0xdc00 then
        match rest with
        | [] => [0xfffd]
        | next :: others =>
            if CompletesPair next then pairPoint unit next :: seenPoints others
            else 0xfffd :: seenPoints (next :: others)
      else if unit.toNat < 0xe000 then 0xfffd :: seenPoints rest
      else unit.toNat :: seenPoints rest

theorem seenPoints_small
    {unit : UInt16} (rest : List UInt16) (small : unit.toNat < 0xd800) :
    seenPoints (unit :: rest) = unit.toNat :: seenPoints rest := by
  rw [seenPoints.eq_def]
  simp only [if_pos small]

theorem seenPoints_single
    {unit next : UInt16} (others : List UInt16)
    (below : ¬ unit.toNat < 0xd800) (upper : unit.toNat < 0xdc00)
    (single : ¬ CompletesPair next) :
    seenPoints (unit :: next :: others) = 0xfffd :: seenPoints (next :: others) := by
  rw [seenPoints, if_neg below, if_pos upper, if_neg single]

theorem seenPoints_pair
    {unit next : UInt16} (others : List UInt16)
    (below : ¬ unit.toNat < 0xd800) (upper : unit.toNat < 0xdc00)
    (pair : CompletesPair next) :
    seenPoints (unit :: next :: others) =
      pairPoint unit next :: seenPoints others := by
  rw [seenPoints, if_neg below, if_pos upper, if_pos pair]

theorem seenPoints_large
    {unit : UInt16} (rest : List UInt16) (large : ¬ unit.toNat < 0xdc00) :
    seenPoints (unit :: rest) =
      (if unit.toNat < 0xe000 then 0xfffd else unit.toNat) :: seenPoints rest := by
  have below : ¬ unit.toNat < 0xd800 := fun small => large (lt_trans small (by decide))
  rw [seenPoints.eq_def]
  simp only [if_neg below, if_neg large]
  split_ifs <;> rfl

/-- The sequence of a code point. -/
def encodePoint (point : Nat) : Bytes :=
  if point < 0x80 then sequence1 point
  else if point < 0x800 then sequence2 point
  else if point < 0x10000 then sequence3 point
  else sequence4 point

/-- The number of bytes in the sequence of a code point. -/
def pointSize (point : Nat) : Nat :=
  if point < 0x80 then 1 else if point < 0x800 then 2
  else if point < 0x10000 then 3 else 4

theorem length_encodePoint (point : Nat) :
    (encodePoint point).length = pointSize point := by
  unfold encodePoint pointSize
  split_ifs <;> rfl

/-- Code points below this bound have a sequence. -/
def pointLimit : Nat := 0x100000

theorem pairPoint_ge (high low : UInt16) :
    0x10000 ≤ pairPoint high low :=
  Nat.left_le_or.trans Nat.left_le_or

theorem pairPoint_lt
    (high low : UInt16)
    (lower : 0xd800 ≤ high.toNat) (upper : high.toNat < 0xdc00) :
    pairPoint high low < pointLimit := by
  have bits : ∀ offset < 1024, (0xd800 + offset) &&& (0xffff ^^^ 0xd800) = offset := by
    decide +kernel
  have highBits : high.toNat &&& (0xffff ^^^ 0xd800) < 1024 := by
    have equal := bits (high.toNat - 0xd800) (by omega)
    rw [Nat.add_sub_cancel' lower] at equal
    omega
  have highPart : (high.toNat &&& (0xffff ^^^ 0xd800)) <<< 10 < 2 ^ 20 := by
    rw [Nat.shiftLeft_eq]
    omega
  have lowPart : low.toNat &&& (0xffff ^^^ 0xdc00) < 2 ^ 20 :=
    lt_of_le_of_lt Nat.and_le_right (by decide)
  exact Nat.or_lt_two_pow
    (Nat.or_lt_two_pow (show 0x10000 < 2 ^ 20 by decide) highPart) lowPart

theorem unit_lt (unit : UInt16) : unit.toNat < pointLimit :=
  lt_trans unit.toNat_lt (by decide)

theorem seenPoints_lt (name : List UInt16) :
    ∀ point ∈ seenPoints name, point < pointLimit := by
  have replaced : 0xfffd < pointLimit := by decide
  fun_induction seenPoints name with
  | case1 => exact fun point member => absurd member List.not_mem_nil
  | case2 unit rest _ ih => exact List.forall_mem_cons.mpr ⟨unit_lt unit, ih⟩
  | case3 => exact List.forall_mem_singleton.mpr replaced
  | case4 unit below upper next others pair ih =>
    exact List.forall_mem_cons.mpr
      ⟨pairPoint_lt unit next (Nat.le_of_not_lt below) upper, ih⟩
  | case5 _ _ _ _ _ _ ih => exact List.forall_mem_cons.mpr ⟨replaced, ih⟩
  | case6 _ _ _ _ _ ih => exact List.forall_mem_cons.mpr ⟨replaced, ih⟩
  | case7 unit _ _ _ _ ih => exact List.forall_mem_cons.mpr ⟨unit_lt unit, ih⟩

/-! ## The transcoder writes the sequences of the code points -/

theorem pointSize_pos (point : Nat) : 0 < pointSize point := by
  unfold pointSize
  split_ifs <;> decide

theorem pointSize_le (point : Nat) : pointSize point ≤ 4 := by
  unfold pointSize
  split_ifs <;> decide

theorem utf16ToUtf8Len_eq (name : List UInt16) :
    utf16ToUtf8Len name = ((seenPoints name).map pointSize).sum := by
  fun_induction utf16ToUtf8Len name with
  | case1 => rfl
  | case2 unit rest small ih =>
    rw [seenPoints_small rest (by omega), List.map_cons, List.sum_cons, ← ih,
      pointSize, if_pos small]
  | case3 unit rest large small ih =>
    rw [seenPoints_small rest (by omega), List.map_cons, List.sum_cons, ← ih,
      pointSize, if_neg large, if_pos small]
  | case4 unit rest _ large small ih =>
    rw [seenPoints_small rest small, List.map_cons, List.sum_cons, ← ih, pointSize,
      if_neg (by omega), if_neg large, if_pos (by omega)]
  | case5 unit _ _ below upper =>
    rw [seenPoints, if_neg below, if_pos upper]
    rfl
  | case6 unit _ _ below upper next others pair ih =>
    have large := pairPoint_ge unit next
    rw [seenPoints_pair others below upper pair, List.map_cons, List.sum_cons, ← ih,
      pointSize, if_neg (by omega), if_neg (by omega), if_neg (by omega)]
  | case7 unit _ _ below upper next others single ih =>
    rw [seenPoints_single others below upper single, List.map_cons, List.sum_cons,
      ← ih]
    rfl
  | case8 unit rest _ _ _ large ih =>
    have small := unit.toNat_lt
    rw [seenPoints_large rest large, List.map_cons, List.sum_cons, ← ih]
    split_ifs with low
    · rfl
    · rw [pointSize, if_neg (by omega), if_neg (by omega), if_pos (by omega)]

theorem length_flatMap_encodePoint (points : List Nat) :
    (points.flatMap encodePoint).length = (points.map pointSize).sum := by
  rw [List.length_flatMap]
  exact congrArg List.sum (List.map_congr_left fun point _ => length_encodePoint point)

/-- A sequence that fits is written in full, and the rest follows it. -/
theorem writeSequence_add
    {bytes rest : Bytes} {more : Nat → Bytes} {room : Nat}
    (writes : more room = rest) (length : rest.length = room) :
    writeSequence bytes (bytes.length + room) more = bytes ++ rest := by
  rw [writeSequence]
  split_ifs with short
  · rw [Nat.add_sub_cancel_left, writes]
  · obtain rfl : room = 0 := by omega
    rw [List.length_eq_zero_iff.mp length, Nat.add_zero, List.take_length,
      List.append_nil]

theorem utf16ToUtf8Span_eq (name : List UInt16) :
    utf16ToUtf8Span name (utf16ToUtf8Len name) =
      (seenPoints name).flatMap encodePoint := by
  have restLength (rest : List UInt16) :
      ((seenPoints rest).flatMap encodePoint).length = utf16ToUtf8Len rest := by
    rw [length_flatMap_encodePoint, utf16ToUtf8Len_eq]
  fun_induction utf16ToUtf8Len name with
  | case1 => rfl
  | case2 unit rest small ih =>
    rw [seenPoints_small rest (by omega), List.flatMap_cons, encodePoint,
      if_pos small, utf16ToUtf8Span.eq_def]
    simp only [if_pos small]
    exact writeSequence_add ih (restLength rest)
  | case3 unit rest large small ih =>
    rw [seenPoints_small rest (by omega), List.flatMap_cons, encodePoint,
      if_neg large, if_pos small, utf16ToUtf8Span.eq_def]
    simp only [if_neg large, if_pos small]
    exact writeSequence_add ih (restLength rest)
  | case4 unit rest low large small ih =>
    rw [seenPoints_small rest small, List.flatMap_cons, encodePoint,
      if_neg low, if_neg large, if_pos (by omega), utf16ToUtf8Span.eq_def]
    simp only [if_neg low, if_neg large, if_pos small]
    exact writeSequence_add ih (restLength rest)
  | case5 unit low large below upper =>
    rw [seenPoints, if_neg below, if_pos upper, utf16ToUtf8Span.eq_def]
    simp only [if_neg low, if_neg large, if_neg below, if_pos upper]
    rfl
  | case6 unit low large below upper next others pair ih =>
    have far := pairPoint_ge unit next
    rw [seenPoints_pair others below upper pair, List.flatMap_cons, encodePoint,
      if_neg (by omega), if_neg (by omega), if_neg (by omega), utf16ToUtf8Span.eq_def]
    simp only [if_neg low, if_neg large, if_neg below, if_pos upper, if_pos pair]
    exact writeSequence_add ih (restLength others)
  | case7 unit low large below upper next others single ih =>
    rw [seenPoints_single others below upper single, List.flatMap_cons,
      utf16ToUtf8Span.eq_def]
    simp only [if_neg low, if_neg large, if_neg below, if_pos upper, if_neg single]
    exact writeSequence_add ih (restLength (next :: others))
  | case8 unit rest low large below above ih =>
    have small := unit.toNat_lt
    rw [seenPoints_large rest above, List.flatMap_cons, utf16ToUtf8Span.eq_def]
    simp only [if_neg low, if_neg large, if_neg below, if_neg above]
    split_ifs with surrogate
    · exact writeSequence_add ih (restLength rest)
    · rw [encodePoint, if_neg low, if_neg large, if_pos (by omega)]
      exact writeSequence_add ih (restLength rest)

/-- A name is transcoded into the sequences of its code points. -/
theorem utf16ToUtf8_eq (name : List UInt16) :
    utf16ToUtf8 name = (seenPoints name).flatMap encodePoint := by
  have full : utf16ToUtf8Len name =
      ((seenPoints name).flatMap encodePoint).length := by
    rw [length_flatMap_encodePoint, utf16ToUtf8Len_eq]
  rw [utf16ToUtf8, utf16ToUtf8Span_eq, full, Nat.sub_self, List.replicate_zero,
    List.append_nil]

/-! ## Reading sequences back -/

theorem toNat_ofNat_byte {value : Nat} (small : value < 256) :
    (UInt8.ofNat value).toNat = value := by
  rw [UInt8.toNat_ofNat']
  exact Nat.mod_eq_of_lt small

/-- A byte of a sequence after its first. -/
theorem toNat_continuation (point : Nat) :
    (UInt8.ofNat (0x80 ||| (point &&& 0x3f))).toNat = 0x80 + point % 64 := by
  have small : point % 64 < 2 ^ 6 := Nat.mod_lt _ (by decide)
  have bits : point &&& 0x3f = point % 64 := Nat.and_two_pow_sub_one_eq_mod point 6
  have joined : 0x80 ||| point % 64 = 0x80 + point % 64 :=
    (Nat.two_pow_add_eq_or_of_lt (lt_trans small (by decide : 2 ^ 6 < 2 ^ 7)) 1).symm
  rw [bits, joined]
  exact toNat_ofNat_byte (by omega)

/-- The first byte of a sequence. -/
theorem toNat_first
    {mark width value : Nat} (small : value < 2 ^ width)
    (fits : 2 ^ width * mark + value < 256) :
    (UInt8.ofNat (2 ^ width * mark ||| value)).toNat = 2 ^ width * mark + value := by
  rw [← Nat.two_pow_add_eq_or_of_lt small]
  exact toNat_ofNat_byte fits

theorem sequence1_values {point : Nat} (small : point < 0x80) :
    (sequence1 point).map UInt8.toNat = [point] := by
  rw [sequence1, List.map_singleton, toNat_ofNat_byte (by omega)]

theorem sequence2_values {point : Nat} (small : point < 0x800) :
    (sequence2 point).map UInt8.toNat = [0xc0 + point / 64, 0x80 + point % 64] := by
  have first : (UInt8.ofNat (0xc0 ||| (point >>> 6))).toNat = 0xc0 + point / 64 := by
    rw [Nat.shiftRight_eq_div_pow]
    exact toNat_first (show point / 2 ^ 6 < 2 ^ 6 by omega)
      (show 2 ^ 6 * 3 + point / 2 ^ 6 < 256 by omega)
  rw [sequence2, List.map_cons, List.map_singleton, first, toNat_continuation]

theorem sequence3_values {point : Nat} (small : point < 0x10000) :
    (sequence3 point).map UInt8.toNat =
      [0xe0 + point / 4096, 0x80 + point / 64 % 64, 0x80 + point % 64] := by
  have first : (UInt8.ofNat (0xe0 ||| (point >>> 12))).toNat = 0xe0 + point / 4096 := by
    rw [Nat.shiftRight_eq_div_pow]
    exact toNat_first (show point / 2 ^ 12 < 2 ^ 4 by omega)
      (show 2 ^ 4 * 14 + point / 2 ^ 12 < 256 by omega)
  rw [sequence3, List.map_cons, List.map_cons, List.map_singleton, first,
    toNat_continuation, toNat_continuation, Nat.shiftRight_eq_div_pow]

/-- Where the code points of Unicode end. -/
def unicodeLimit : Nat := 0x110000

theorem lt_unicodeLimit {point : Nat} (small : point < pointLimit) : point < unicodeLimit :=
  small.trans (by decide)

theorem sequence4_values {point : Nat} (small : point < unicodeLimit) :
    (sequence4 point).map UInt8.toNat =
      [0xf0 + point / 262144, 0x80 + point / 4096 % 64, 0x80 + point / 64 % 64,
        0x80 + point % 64] := by
  have bound : point < 0x110000 := small
  have first :
      (UInt8.ofNat (0xf0 ||| (point >>> 18))).toNat = 0xf0 + point / 262144 := by
    rw [Nat.shiftRight_eq_div_pow]
    exact toNat_first (show point / 2 ^ 18 < 2 ^ 4 by omega)
      (show 2 ^ 4 * 15 + point / 2 ^ 18 < 256 by omega)
  rw [sequence4, List.map_cons, List.map_cons, List.map_cons, List.map_singleton,
    first, toNat_continuation, toNat_continuation, toNat_continuation,
    Nat.shiftRight_eq_div_pow, Nat.shiftRight_eq_div_pow]

/-- The values of the bytes of a sequence. -/
def pointValues (point : Nat) : List Nat :=
  if point < 0x80 then [point]
  else if point < 0x800 then [0xc0 + point / 64, 0x80 + point % 64]
  else if point < 0x10000 then
    [0xe0 + point / 4096, 0x80 + point / 64 % 64, 0x80 + point % 64]
  else
    [0xf0 + point / 262144, 0x80 + point / 4096 % 64, 0x80 + point / 64 % 64,
      0x80 + point % 64]

theorem encodePoint_values {point : Nat} (small : point < unicodeLimit) :
    (encodePoint point).map UInt8.toNat = pointValues point := by
  unfold encodePoint pointValues
  split_ifs with one two three
  · exact sequence1_values one
  · exact sequence2_values two
  · exact sequence3_values three
  · exact sequence4_values small

theorem encodePoint_prefixFree :
    PrefixFree encodePoint (fun point => point < pointLimit) := by
  constructor
  · intro point _ empty
    have length := length_encodePoint point
    rw [empty] at length
    exact absurd length.symm (Nat.ne_of_gt (pointSize_pos point))
  · intro a b x y smallA smallB equal
    have values := congrArg (List.map UInt8.toNat) equal
    rw [List.map_append, List.map_append, encodePoint_values (lt_unicodeLimit smallA),
      encodePoint_values (lt_unicodeLimit smallB)] at values
    have limit : pointLimit = 0x100000 := rfl
    rw [limit] at smallA smallB
    unfold pointValues at values
    split_ifs at values <;>
      simp only [List.cons_append, List.nil_append, List.cons.injEq] at values <;>
      omega

/-! ## Names that were cut -/

theorem fromEnd_append
    {front tail : Bytes} {values : List Nat} {places : Nat}
    (read : tail.map UInt8.toNat = values) (inside : places ≤ values.length) :
    fromEnd (front ++ tail) places = values.getD (values.length - places) 0 := by
  have length : tail.length = values.length := by
    rw [← read, List.length_map]
  have position :
      (front ++ tail).length - places = front.length + (values.length - places) := by
    rw [List.length_append, length]
    omega
  rw [fromEnd, position, List.getD_append_right _ _ _ _ (Nat.le_add_right _ _),
    Nat.add_sub_cancel_left, ← read]
  exact (List.getD_map _ (0 : UInt8) UInt8.toNat).symm

/-- The last byte of a string of whole sequences does not start a sequence. -/
theorem fromEnd_whole
    {points : List Nat} (small : ∀ point ∈ points, point < unicodeLimit) :
    fromEnd (points.flatMap encodePoint) 1 < 0xc0 := by
  rcases List.eq_nil_or_concat points with rfl | ⟨front, point, rfl⟩
  · decide
  · have read := encodePoint_values (small point (by simp))
    have bound := small point (by simp)
    have limit : unicodeLimit = 0x110000 := rfl
    rw [List.concat_eq_append, List.flatMap_append, List.flatMap_singleton]
    unfold pointValues at read
    split_ifs at read <;>
      · rw [fromEnd_append read (by simp)]
        simp
        omega

/-- The tests `fix_truncated_utf8` makes on a byte. -/
theorem byte_tests :
    ∀ value < 256,
      (value &&& 0x80 = 0 ↔ value < 0x80) ∧
        (value &&& 0xc0 = 0xc0 ↔ 0xc0 ≤ value) ∧
        ¬ value &&& 0xe0 = 0xd0 ∧
        (value &&& 0xe0 = 0xe0 ↔ 0xe0 ≤ value) ∧
        (value &&& 0xf0 = 0xe0 ↔ 0xe0 ≤ value ∧ value < 0xf0) ∧
        (value &&& 0xf0 = 0xf0 ↔ 0xf0 ≤ value) := by
  decide +kernel

theorem fromEnd_lt (s : Bytes) (places : Nat) : fromEnd s places < 256 :=
  UInt8.toNat_lt _

/-- `fix_truncated_utf8` as comparisons of bytes. -/
theorem fixTruncatedUtf8_eq (s : Bytes) :
    fixTruncatedUtf8 s =
      if fromEnd s 1 < 0x80 then s
      else if 0xc0 ≤ fromEnd s 1 then s.dropLast
      else if 0xe0 ≤ fromEnd s 2 then s.dropLast.dropLast
      else if 0xe0 ≤ fromEnd s 3 ∧ fromEnd s 3 < 0xf0 then s
      else if 0xf0 ≤ fromEnd s 3 then s.dropLast.dropLast.dropLast
      else s := by
  obtain ⟨single, lead, -, -, -, -⟩ := byte_tests _ (fromEnd_lt s 1)
  obtain ⟨-, -, never, second, -, -⟩ := byte_tests _ (fromEnd_lt s 2)
  obtain ⟨-, -, -, -, three, four⟩ := byte_tests _ (fromEnd_lt s 3)
  rw [fixTruncatedUtf8, if_neg never]
  simp only [single, lead, second, three, four]

/-- A name that ends with a whole sequence stays as it is. -/
theorem fixTruncatedUtf8_whole
    {points : List Nat} (small : ∀ point ∈ points, point < unicodeLimit)
    (long : 3 ≤ (points.flatMap encodePoint).length) :
    fixTruncatedUtf8 (points.flatMap encodePoint) =
      points.flatMap encodePoint := by
  rcases List.eq_nil_or_concat points with rfl | ⟨front, point, rfl⟩
  · exact absurd long (by decide)
  have read := encodePoint_values (small point (by simp))
  have bound := small point (by simp)
  have before : fromEnd (front.flatMap encodePoint) 1 < 0xc0 :=
    fromEnd_whole fun other member => small other (by simp [member])
  have limit : unicodeLimit = 0x110000 := rfl
  rw [List.concat_eq_append, List.flatMap_append, List.flatMap_singleton] at long ⊢
  have ends (places : Nat) (inside : places ≤ (pointValues point).length) :
      fromEnd (front.flatMap encodePoint ++ encodePoint point) places =
        (pointValues point).getD ((pointValues point).length - places) 0 :=
    fromEnd_append read inside
  have size : (encodePoint point).length = (pointValues point).length := by
    rw [← read, List.length_map]
  rw [fixTruncatedUtf8_eq]
  unfold pointValues at ends size
  split_ifs at ends size with one two three
  · have last := ends 1 (by simp)
    simp only [List.length_singleton, Nat.sub_self, List.getD_cons_zero] at last
    rw [if_pos (by omega)]
  · have last := ends 1 (by simp)
    have second := ends 2 (by simp)
    have third :
        fromEnd (front.flatMap encodePoint ++ encodePoint point) 3 =
          fromEnd (front.flatMap encodePoint) 1 := by
      simp only [List.length_cons, List.length_nil] at size
      rw [List.length_append, size] at long
      rw [fromEnd, fromEnd, List.length_append, size,
        List.getD_append _ _ _ _ (by omega)]
      rfl
    simp at last second
    rw [if_neg (by omega), if_neg (by omega), if_neg (by omega), if_neg (by omega),
      if_neg (by omega)]
  · have last := ends 1 (by simp)
    have second := ends 2 (by simp)
    have third := ends 3 (by simp)
    simp at last second third
    rw [if_neg (by omega), if_neg (by omega), if_neg (by omega), if_pos (by omega)]
  · have last := ends 1 (by simp)
    have second := ends 2 (by simp)
    have third := ends 3 (by simp)
    simp at last second third
    rw [if_neg (by omega), if_neg (by omega), if_neg (by omega), if_neg (by omega),
      if_neg (by omega)]

theorem fixTruncatedUtf8_first
    {front : Bytes} {first : UInt8} (lead : 0xc0 ≤ first.toNat) :
    fixTruncatedUtf8 (front ++ [first]) = front := by
  have last : fromEnd (front ++ [first]) 1 = first.toNat :=
    fromEnd_append (rfl : [first].map UInt8.toNat = _) (by simp)
  rw [fixTruncatedUtf8_eq, if_neg (by omega), if_pos (by omega), List.dropLast_concat]

theorem fixTruncatedUtf8_second
    {front : Bytes} {first second : UInt8} (lead : 0xe0 ≤ first.toNat)
    (lower : 0x80 ≤ second.toNat) (upper : second.toNat < 0xc0) :
    fixTruncatedUtf8 (front ++ [first, second]) = front := by
  have last : fromEnd (front ++ [first, second]) 1 = second.toNat :=
    fromEnd_append (rfl : [first, second].map UInt8.toNat = _) (by simp)
  have start : fromEnd (front ++ [first, second]) 2 = first.toNat :=
    fromEnd_append (rfl : [first, second].map UInt8.toNat = _) (by simp)
  rw [fixTruncatedUtf8_eq, if_neg (by omega), if_neg (by omega), if_pos (by omega)]
  simp

theorem fixTruncatedUtf8_third
    {front : Bytes} {first second third : UInt8} (lead : 0xf0 ≤ first.toNat)
    (secondUpper : second.toNat < 0xc0)
    (lower : 0x80 ≤ third.toNat) (upper : third.toNat < 0xc0) :
    fixTruncatedUtf8 (front ++ [first, second, third]) = front := by
  have last : fromEnd (front ++ [first, second, third]) 1 = third.toNat :=
    fromEnd_append (rfl : [first, second, third].map UInt8.toNat = _) (by simp)
  have middle : fromEnd (front ++ [first, second, third]) 2 = second.toNat :=
    fromEnd_append (rfl : [first, second, third].map UInt8.toNat = _) (by simp)
  have start : fromEnd (front ++ [first, second, third]) 3 = first.toNat :=
    fromEnd_append (rfl : [first, second, third].map UInt8.toNat = _) (by simp)
  rw [fixTruncatedUtf8_eq, if_neg (by omega), if_neg (by omega), if_neg (by omega),
    if_neg (by omega), if_pos (by omega)]
  simp

/-- A proper part of a sequence at the end of a name is removed. -/
theorem fixTruncatedUtf8_part
    {front : Bytes} {point count : Nat} (small : point < unicodeLimit)
    (positive : 0 < count) (short : count < (encodePoint point).length) :
    fixTruncatedUtf8 (front ++ (encodePoint point).take count) = front := by
  have values := encodePoint_values small
  have limit : unicodeLimit = 0x110000 := rfl
  rw [← List.length_map UInt8.toNat, values] at short
  generalize encodePoint point = bytes at values ⊢
  unfold pointValues at values short
  split_ifs at values short with one two three
  · simp at short
    omega
  · obtain ⟨first, _, rfl, lead, values⟩ := List.map_eq_cons_iff.mp values
    obtain rfl : count = 1 := by simp at short; omega
    exact fixTruncatedUtf8_first (by omega)
  · obtain ⟨first, _, rfl, lead, values⟩ := List.map_eq_cons_iff.mp values
    obtain ⟨second, _, rfl, next, values⟩ := List.map_eq_cons_iff.mp values
    obtain rfl | rfl : count = 1 ∨ count = 2 := by simp at short; omega
    · exact fixTruncatedUtf8_first (by omega)
    · exact fixTruncatedUtf8_second (by omega) (by omega) (by omega)
  · obtain ⟨first, _, rfl, lead, values⟩ := List.map_eq_cons_iff.mp values
    obtain ⟨second, _, rfl, next, values⟩ := List.map_eq_cons_iff.mp values
    obtain ⟨third, _, rfl, other, values⟩ := List.map_eq_cons_iff.mp values
    obtain rfl | rfl | rfl : count = 1 ∨ count = 2 ∨ count = 3 := by
      simp at short
      omega
    · exact fixTruncatedUtf8_first (by omega)
    · exact fixTruncatedUtf8_second (by omega) (by omega) (by omega)
    · exact fixTruncatedUtf8_third (by omega) (by omega) (by omega) (by omega)

/-- What is left of a string that is cut are the sequences that fit. -/
theorem fixTruncatedUtf8_take
    {points : List Nat} (small : ∀ point ∈ points, point < unicodeLimit) {room : Nat}
    (places : 3 ≤ room) (long : room < (points.flatMap encodePoint).length) :
    fixTruncatedUtf8 ((points.flatMap encodePoint).take room) =
      (fitting pointSize room points).flatMap encodePoint := by
  obtain ⟨part, equal, shape⟩ := take_flatMap encodePoint points room
  have sizes : (fun point => (encodePoint point).length) = pointSize :=
    funext length_encodePoint
  rw [sizes] at equal
  have length : ((points.flatMap encodePoint).take room).length = room := by
    rw [List.length_take]
    omega
  rcases shape with rfl | ⟨point, member, count, positive, short, rfl⟩
  · rw [List.append_nil] at equal
    rw [equal] at length ⊢
    exact fixTruncatedUtf8_whole
      (fun point member => small point (mem_of_mem_fitting member)) (by rwa [length])
  · rw [equal]
    exact fixTruncatedUtf8_part (small point member) positive short

/-! ## The name of a link -/

/-- The code points of a name that fit in 255 bytes. -/
def keptPoints (name : List UInt16) : List Nat :=
  fitting pointSize 255 (seenPoints name)

/-- A name consists of the code points that fit. -/
theorem linkName_eq (name : List UInt16) :
    linkName name = (keptPoints name).flatMap encodePoint := by
  have small := seenPoints_lt name
  rw [linkName, utf16ToUtf8_eq]
  split_ifs with long
  · exact fixTruncatedUtf8_take (fun point member => lt_unicodeLimit (small point member))
      (by decide) long
  · rw [length_flatMap_encodePoint] at long
    rw [keptPoints, fitting_eq_self (by omega)]

/-- A name has at most 255 bytes. -/
theorem length_linkName_le (name : List UInt16) :
    (linkName name).length ≤ 255 := by
  rw [linkName_eq, length_flatMap_encodePoint]
  exact sum_fitting_le pointSize (seenPoints name) 255

/-- Two names are confused exactly when the same code points of them fit. -/
theorem linkName_eq_iff (left right : List UInt16) :
    linkName left = linkName right ↔ keptPoints left = keptPoints right := by
  constructor
  · intro equal
    rw [linkName_eq, linkName_eq] at equal
    exact encodePoint_prefixFree.flatMap_inj
      (fun point member => seenPoints_lt left point (mem_of_mem_fitting member))
      (fun point member => seenPoints_lt right point (mem_of_mem_fitting member)) equal
  · intro equal
    rw [linkName_eq, linkName_eq, equal]

/-! ## Names in ASCII -/

/-- Every value is an ASCII character. -/
def Ascii (text : List Nat) : Prop :=
  ∀ point ∈ text, point < 0x80

theorem Ascii.sum_sizes {text : List Nat} (ascii : Ascii text) :
    (text.map pointSize).sum = text.length := by
  have sizes : text.map pointSize = text.map fun _ => 1 :=
    List.map_congr_left fun point member => by rw [pointSize, if_pos (ascii point member)]
  rw [sizes, List.map_const', List.sum_replicate, smul_eq_mul, Nat.mul_one]

/-- Only ASCII units are seen as ASCII characters. -/
theorem units_of_seenPoints_ascii
    (name : List UInt16) (ascii : Ascii (seenPoints name)) :
    name.map UInt16.toNat = seenPoints name := by
  fun_induction seenPoints name with
  | case1 => rfl
  | case2 unit rest _ ih =>
    rw [List.map_cons, ih (List.forall_mem_cons.mp ascii).2]
  | case3 => exact absurd (ascii 0xfffd List.mem_cons_self) (by decide)
  | case4 unit _ _ next =>
    have far := pairPoint_ge unit next
    have near := ascii _ List.mem_cons_self
    omega
  | case5 => exact absurd (ascii 0xfffd List.mem_cons_self) (by decide)
  | case6 => exact absurd (ascii 0xfffd List.mem_cons_self) (by decide)
  | case7 unit _ above =>
    have near := ascii unit.toNat List.mem_cons_self
    omega

theorem seenPoints_of_ascii
    (name : List UInt16) (ascii : Ascii (name.map UInt16.toNat)) :
    seenPoints name = name.map UInt16.toNat := by
  induction name with
  | nil => rfl
  | cons unit rest ih =>
    obtain ⟨small, ascii⟩ := List.forall_mem_cons.mp ascii
    rw [seenPoints_small rest (by omega), List.map_cons, ih ascii]

/-- A short name in ASCII is kept from this one name only. -/
theorem keptPoints_eq_ascii_iff
    (name : List UInt16) {text : List Nat} (ascii : Ascii text)
    (short : text.length ≤ 251) :
    keptPoints name = text ↔ name.map UInt16.toNat = text := by
  constructor
  · intro kept
    have whole : fitting pointSize 255 (seenPoints name) = seenPoints name := by
      by_contra cut
      have filled :=
        lt_sum_fitting_of_ne (fun point _ => pointSize_le point) cut
      rw [← keptPoints, kept, ascii.sum_sizes] at filled
      omega
    have seen : seenPoints name = text := whole.symm.trans kept
    rw [units_of_seenPoints_ascii name (seen ▸ ascii), seen]
  · rintro rfl
    rw [keptPoints, seenPoints_of_ascii name ascii]
    exact fitting_eq_self (by rw [ascii.sum_sizes]; omega)

theorem encodePoint_ascii
    {text : Bytes} (ascii : Ascii (text.map UInt8.toNat)) :
    (text.map UInt8.toNat).flatMap encodePoint = text := by
  induction text with
  | nil => rfl
  | cons byte rest ih =>
    obtain ⟨small, ascii⟩ := List.forall_mem_cons.mp ascii
    rw [List.map_cons, List.flatMap_cons, ih ascii, encodePoint, if_pos small,
      sequence1, UInt8.ofNat_toNat]
    rfl

/-- A short name in ASCII belongs to one name in UTF-16 only. -/
theorem linkName_eq_ascii_iff
    (name : List UInt16) {text : Bytes} (ascii : Ascii (text.map UInt8.toNat))
    (short : text.length ≤ 251) :
    linkName name = text ↔ name.map UInt16.toNat = text.map UInt8.toNat := by
  rw [← keptPoints_eq_ascii_iff name ascii (by rw [List.length_map]; exact short),
    linkName_eq]
  constructor
  · intro equal
    rw [← encodePoint_ascii ascii] at equal
    exact encodePoint_prefixFree.flatMap_inj
      (fun point member => seenPoints_lt name point (mem_of_mem_fitting member))
      (fun point member => lt_trans (ascii point member) (by decide)) equal
  · intro kept
    rw [kept, encodePoint_ascii ascii]

end Ntfs2Btrfs
