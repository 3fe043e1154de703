import Ntfs2Btrfs.Unicode

/-!
# What UTF-16 names mean

A name in UTF-16 stands for a text: a high surrogate and a low surrogate after it
are one character, and a surrogate without a partner is read as U+FFFD.  The
transcoder keeps this meaning exactly in the names whose pairs it joins rightly.
It joins by `|`, which loses the plane of every second plane, and its test for a
low surrogate also admits the units from `0xfc00` on.
-/

namespace Ntfs2Btrfs

open ByteStore
open PrefixCode

/-! ## UTF-16 -/

/-- The first half of a pair. -/
def IsHigh (unit : UInt16) : Prop :=
  0xd800 ≤ unit.toNat ∧ unit.toNat < 0xdc00

/-- The second half of a pair. -/
def IsLow (unit : UInt16) : Prop :=
  0xdc00 ≤ unit.toNat ∧ unit.toNat < 0xe000

instance (unit : UInt16) : Decidable (IsHigh unit) :=
  inferInstanceAs (Decidable (_ ∧ _))

instance (unit : UInt16) : Decidable (IsLow unit) :=
  inferInstanceAs (Decidable (_ ∧ _))

/-- The character that is read for a surrogate without a partner. -/
def replacementChar : Char := Char.ofNat 0xfffd

/-- The code point of a pair of surrogates. -/
def joinedPoint (high low : UInt16) : Nat :=
  ((high.toNat - 0xd800) <<< 10) + (low.toNat - 0xdc00) + 0x10000

/-- The text that a name in UTF-16 stands for. -/
def decodeUtf16 : List UInt16 → List Char
  | [] => []
  | unit :: rest =>
      if IsHigh unit then
        match rest with
        | [] => [replacementChar]
        | next :: others =>
            if IsLow next then Char.ofNat (joinedPoint unit next) :: decodeUtf16 others
            else replacementChar :: decodeUtf16 (next :: others)
      else if IsLow unit then replacementChar :: decodeUtf16 rest
      else Char.ofNat unit.toNat :: decodeUtf16 rest

/-- The units of a character. -/
def utf16Units (character : Char) : List UInt16 :=
  if character.toNat < 0x10000 then [UInt16.ofNat character.toNat]
  else
    [UInt16.ofNat (0xd800 + (character.toNat - 0x10000) / 1024),
      UInt16.ofNat (0xdc00 + (character.toNat - 0x10000) % 1024)]

/-- Well-formed UTF-16 is the UTF-16 of a text. -/
def WellFormedUtf16 (name : List UInt16) : Prop :=
  ∃ text : List Char, name = text.flatMap utf16Units

theorem toNat_charOfNat {point : Nat} (valid : point.isValidChar) :
    (Char.ofNat point).toNat = point := by
  rw [Char.ofNat, dif_pos valid]
  rfl

theorem toNat_lt_limit (character : Char) : character.toNat < 0x110000 := by
  rcases character.valid with low | ⟨-, high⟩
  · exact lt_trans low (by decide)
  · exact high

/-! ## The sequences of the transcoder are those of UTF-8 -/

/-- The byte after a mark whose bits do not meet the value. -/
theorem ofNat_or_eq
    {mark width value : Nat} (small : value < 2 ^ width) :
    UInt8.ofNat (2 ^ width * mark ||| value) = UInt8.ofNat (value + 2 ^ width * mark) := by
  rw [← Nat.two_pow_add_eq_or_of_lt small, Nat.add_comm]

theorem continuation_eq (value : Nat) :
    UInt8.ofNat (0x80 ||| (value &&& 0x3f)) = UInt8.ofNat (value % 64 + 0x80) := by
  have bits : value &&& 0x3f = value % 64 := Nat.and_two_pow_sub_one_eq_mod value 6
  rw [bits]
  exact @ofNat_or_eq 1 7 _ (by omega)

/-- The bytes written for a code point are its bytes in UTF-8. -/
theorem encodePoint_toNat (character : Char) :
    encodePoint character.toNat = String.utf8EncodeChar character := by
  have small := toNat_lt_limit character
  have same : character.val.toNat = character.toNat := rfl
  unfold encodePoint String.utf8EncodeChar
  simp only [same]
  generalize character.toNat = point at small
  split_ifs with one _ two _ three _ <;> try omega
  · rfl
  · rw [sequence2, continuation_eq, Nat.shiftRight_eq_div_pow,
      Nat.mod_eq_of_lt (show point / 64 < 32 by omega)]
    exact congrArg (· :: _) (@ofNat_or_eq 3 6 _ (by omega))
  · rw [sequence3, continuation_eq, continuation_eq, Nat.shiftRight_eq_div_pow,
      Nat.shiftRight_eq_div_pow, Nat.mod_eq_of_lt (show point / 4096 < 16 by omega)]
    exact congrArg (· :: _) (@ofNat_or_eq 14 4 _ (by omega))
  · rw [sequence4, continuation_eq, continuation_eq, continuation_eq,
      Nat.shiftRight_eq_div_pow, Nat.shiftRight_eq_div_pow, Nat.shiftRight_eq_div_pow,
      Nat.mod_eq_of_lt (show point / 262144 < 8 by omega)]
    exact congrArg (· :: _) (@ofNat_or_eq 15 4 _ (by omega))

theorem utf8EncodeChar_prefixFree :
    PrefixFree String.utf8EncodeChar fun _ => True := by
  refine ⟨fun character _ => String.utf8EncodeChar_ne_nil, fun a b x y _ _ equal => ?_⟩
  have bytes := congrArg List.toByteArray equal
  rw [List.toByteArray_append, List.toByteArray_append] at bytes
  have left := @ByteArray.utf8DecodeChar?_utf8EncodeChar_append x.toByteArray a
  rw [bytes, ByteArray.utf8DecodeChar?_utf8EncodeChar_append] at left
  exact (Option.some.inj left).symm

/-! ## The characters the transcoder sees -/

/-- The test for the second half of a pair admits two ranges. -/
theorem completesPair_iff (unit : UInt16) :
    CompletesPair unit ↔ IsLow unit ∨ 0xfc00 ≤ unit.toNat := by
  have small : unit.toNat / 1024 < 64 := by
    have bound := unit.toNat_lt
    omega
  have bits : ∀ top < 64, top &&& 0x37 = 0x37 ↔ top = 0x37 ∨ top = 0x3f := by decide
  have shifted : (unit.toNat &&& 0xdc00) >>> 10 = unit.toNat / 1024 &&& 0x37 := by
    rw [Nat.shiftRight_and_distrib, Nat.shiftRight_eq_div_pow]
    rfl
  have masked : unit.toNat &&& 0xdc00 ≤ 0xdc00 := Nat.and_le_right
  rw [Nat.shiftRight_eq_div_pow] at shifted
  have top := bits _ small
  rw [← shifted] at top
  unfold CompletesPair IsLow
  constructor
  · intro equal
    rw [equal] at top
    have cases := top.mp rfl
    omega
  · intro cases
    have equal := top.mpr (by omega)
    omega

/-- The point of a pair, by the tops of its halves. -/
theorem pairPoint_eq
    {high low : UInt16} (first : IsHigh high) (second : IsLow low) :
    pairPoint high low =
      (64 ||| (high.toNat - 0xd800)) * 1024 + (low.toNat - 0xdc00) := by
  obtain ⟨lower, upper⟩ := first
  obtain ⟨lower', upper'⟩ := second
  have bitsHigh : ∀ offset < 1024, (0xd800 + offset) &&& (0xffff ^^^ 0xd800) = offset := by
    decide +kernel
  have bitsLow : ∀ offset < 1024, (0xdc00 + offset) &&& (0xffff ^^^ 0xdc00) = offset := by
    decide +kernel
  have highBits := bitsHigh (high.toNat - 0xd800) (by omega)
  have lowBits := bitsLow (low.toNat - 0xdc00) (by omega)
  rw [Nat.add_sub_cancel' lower] at highBits
  rw [Nat.add_sub_cancel' lower'] at lowBits
  have small : low.toNat - 0xdc00 < 2 ^ 10 := by omega
  have mark : 0x10000 = 64 <<< 10 := by decide
  rw [pairPoint, highBits, lowBits, mark, ← Nat.shiftLeft_or_distrib,
    Nat.shiftLeft_eq, Nat.mul_comm, ← Nat.two_pow_add_eq_or_of_lt small, Nat.mul_comm]

theorem joinedPoint_eq (high low : UInt16) :
    joinedPoint high low =
      (high.toNat - 0xd800) * 1024 + (low.toNat - 0xdc00) + 0x10000 := by
  rw [joinedPoint, Nat.shiftLeft_eq]

/-- The transcoder gives a pair its code point where the bit of `0x10000` is free. -/
theorem pairPoint_eq_joinedPoint_iff
    {high low : UInt16} (first : IsHigh high) (second : IsLow low) :
    pairPoint high low = joinedPoint high low ↔
      (high.toNat - 0xd800) / 64 % 2 = 0 := by
  have bits :
      ∀ offset < 1024, (64 ||| offset = 64 + offset ↔ offset / 64 % 2 = 0) := by
    decide +kernel
  obtain ⟨lower, upper⟩ := first
  have top := bits (high.toNat - 0xd800) (by omega)
  rw [pairPoint_eq ⟨lower, upper⟩ second, ← top, joinedPoint_eq]
  omega

theorem isValidChar_pairPoint
    {high low : UInt16} (first : IsHigh high) :
    (pairPoint high low).isValidChar := by
  have lower := pairPoint_ge high low
  have upper := pairPoint_lt high low first.1 first.2
  have limit : pointLimit = 0x100000 := rfl
  exact Or.inr (by omega)

theorem isValidChar_joinedPoint
    {high low : UInt16} (first : IsHigh high) (second : IsLow low) :
    (joinedPoint high low).isValidChar := by
  obtain ⟨lower, upper⟩ := first
  obtain ⟨lower', upper'⟩ := second
  have value := joinedPoint_eq high low
  have bound : joinedPoint high low < 0x110000 := by omega
  have far : 0x10000 ≤ joinedPoint high low := by omega
  exact Or.inr (by omega)

/-- The characters which the transcoder sees in a name. -/
def seenChars (name : List UInt16) : List Char :=
  (seenPoints name).map Char.ofNat

theorem isValidChar_unit {unit : UInt16} (apart : ¬ (IsHigh unit ∨ IsLow unit)) :
    unit.toNat.isValidChar := by
  have bound := unit.toNat_lt
  unfold IsHigh IsLow at apart
  rcases Nat.lt_or_ge unit.toNat 0xd800 with low | above
  · exact Or.inl low
  · exact Or.inr (by omega)

theorem isValidChar_seenPoints (name : List UInt16) :
    ∀ point ∈ seenPoints name, point.isValidChar := by
  have replaced : Nat.isValidChar 0xfffd := by decide
  fun_induction seenPoints name with
  | case1 => exact fun point member => absurd member List.not_mem_nil
  | case2 unit rest small ih =>
    exact List.forall_mem_cons.mpr ⟨Or.inl small, ih⟩
  | case3 => exact List.forall_mem_singleton.mpr replaced
  | case4 unit below upper next others pair ih =>
    exact List.forall_mem_cons.mpr
      ⟨isValidChar_pairPoint ⟨Nat.le_of_not_lt below, upper⟩, ih⟩
  | case5 _ _ _ _ _ _ ih => exact List.forall_mem_cons.mpr ⟨replaced, ih⟩
  | case6 _ _ _ _ _ ih => exact List.forall_mem_cons.mpr ⟨replaced, ih⟩
  | case7 unit rest below above large ih =>
    refine List.forall_mem_cons.mpr ⟨isValidChar_unit ?_, ih⟩
    rintro (⟨-, upper⟩ | ⟨-, upper⟩)
    · exact above upper
    · exact large upper

/-- A name is transcoded into the UTF-8 of the characters seen in it. -/
theorem utf16ToUtf8_eq_seenChars (name : List UInt16) :
    utf16ToUtf8 name = (seenChars name).flatMap String.utf8EncodeChar := by
  rw [utf16ToUtf8_eq, seenChars, List.flatMap_map]
  refine List.flatMap_congr fun point member => ?_
  have valid := isValidChar_seenPoints name point member
  rw [← encodePoint_toNat, toNat_charOfNat valid]

/-! ## Names whose pairs are joined rightly -/

/-- The transcoder joins a high surrogate with the unit after it as UTF-16 does. -/
def JoinedRightly (unit next : UInt16) : Prop :=
  IsHigh unit →
    next.toNat < 0xfc00 ∧ (IsLow next → (unit.toNat - 0xd800) / 64 % 2 = 0)

instance (unit next : UInt16) : Decidable (JoinedRightly unit next) :=
  inferInstanceAs (Decidable (_ → _))

/-- Every pair of a name is joined rightly. -/
def KeepsPairs (name : List UInt16) : Prop :=
  name.IsChain JoinedRightly

instance (name : List UInt16) : Decidable (KeepsPairs name) :=
  inferInstanceAs (Decidable (List.IsChain _ _))

theorem keepsPairs_cons_iff
    {unit : UInt16} {rest : List UInt16} (apart : ¬ IsHigh unit) :
    KeepsPairs (unit :: rest) ↔ KeepsPairs rest := by
  unfold KeepsPairs
  rw [List.isChain_cons]
  exact and_iff_right fun next _ high => absurd high apart

theorem keepsPairs_pair_iff
    {unit next : UInt16} {others : List UInt16} (apart : ¬ IsHigh next) :
    KeepsPairs (unit :: next :: others) ↔
      JoinedRightly unit next ∧ KeepsPairs others := by
  rw [← @keepsPairs_cons_iff next others apart]
  exact List.isChain_cons_cons

theorem charOfNat_inj
    {a b : Nat} (left : a.isValidChar) (right : b.isValidChar) :
    Char.ofNat a = Char.ofNat b ↔ a = b := by
  constructor
  · intro equal
    rw [← toNat_charOfNat left, equal, toNat_charOfNat right]
  · rintro rfl
    rfl

/--
The characters seen in a name are those it stands for exactly when its pairs are
joined rightly.
-/
theorem seenChars_eq_iff (name : List UInt16) :
    seenChars name = decodeUtf16 name ↔ KeepsPairs name := by
  unfold seenChars
  fun_induction decodeUtf16 name with
  | case1 => exact ⟨fun _ => List.IsChain.nil, fun _ => rfl⟩
  | case2 unit high =>
    rw [seenPoints, if_neg (Nat.not_lt.mpr high.1), if_pos high.2]
    exact ⟨fun _ => List.IsChain.singleton unit, fun _ => rfl⟩
  | case3 unit high next others low ih =>
    have pair : CompletesPair next := (completesPair_iff next).mpr (Or.inl low)
    have apart : ¬ IsHigh next := fun other => Nat.not_lt.mpr low.1 other.2
    rw [seenPoints_pair others (Nat.not_lt.mpr high.1) high.2 pair, List.map_cons,
      List.cons.injEq, ih, keepsPairs_pair_iff apart,
      charOfNat_inj (isValidChar_pairPoint high) (isValidChar_joinedPoint high low),
      pairPoint_eq_joinedPoint_iff high low]
    refine and_congr_left fun _ => ⟨fun plane _ => ⟨?_, fun _ => plane⟩, fun joined => ?_⟩
    · exact lt_trans low.2 (by decide)
    · exact (joined high).2 low
  | case4 unit high next others single ih =>
    rcases Nat.lt_or_ge next.toNat 0xfc00 with near | far
    · have apart : ¬ CompletesPair next := fun pair => by
        rcases (completesPair_iff next).mp pair with low | far
        · exact single low
        · exact Nat.not_lt.mpr far near
      have joined : JoinedRightly unit next := fun _ => ⟨near, fun low => absurd low single⟩
      rw [seenPoints_single others (Nat.not_lt.mpr high.1) high.2 apart, List.map_cons,
        List.cons.injEq, ih]
      unfold KeepsPairs
      rw [List.isChain_cons_cons]
      exact ⟨fun kept => ⟨joined, kept.2⟩, fun kept => ⟨rfl, kept.2⟩⟩
    · -- the transcoder takes the two units for a pair
      have pair : CompletesPair next := (completesPair_iff next).mpr (Or.inr far)
      have large := pairPoint_ge unit next
      have other : ¬ Char.ofNat (pairPoint unit next) = replacementChar := fun equal => by
        rw [replacementChar, charOfNat_inj (isValidChar_pairPoint high) (by decide)] at equal
        omega
      rw [seenPoints_pair others (Nat.not_lt.mpr high.1) high.2 pair, List.map_cons,
        List.cons.injEq]
      unfold KeepsPairs
      rw [List.isChain_cons_cons]
      exact ⟨fun kept => absurd kept.1 other,
        fun kept => absurd (kept.1 high).1 (Nat.not_lt.mpr far)⟩
  | case5 unit rest apart low ih =>
    rw [seenPoints_large rest (Nat.not_lt.mpr low.1), if_pos low.2, List.map_cons,
      List.cons.injEq, ih, keepsPairs_cons_iff apart]
    exact and_iff_right rfl
  | case6 unit rest apart alone ih =>
    rw [keepsPairs_cons_iff apart, ← ih]
    rcases Nat.lt_or_ge unit.toNat 0xd800 with small | large
    · rw [seenPoints_small rest small, List.map_cons, List.cons.injEq]
      exact and_iff_right rfl
    · have above : 0xe000 ≤ unit.toNat := by
        unfold IsHigh at apart
        unfold IsLow at alone
        omega
      rw [seenPoints_large rest (by omega), if_neg (by omega), List.map_cons,
        List.cons.injEq]
      exact and_iff_right rfl

/-! ## Texts -/

/-- UTF-16 is read back: a name is the UTF-16 of one text only. -/
theorem decodeUtf16_units (text : List Char) :
    decodeUtf16 (text.flatMap utf16Units) = text := by
  induction text with
  | nil => rfl
  | cons character rest ih =>
    have limit := toNat_lt_limit character
    rw [List.flatMap_cons, utf16Units]
    split_ifs with basic
    · have value : (UInt16.ofNat character.toNat).toNat = character.toNat := by
        rw [UInt16.toNat_ofNat']
        exact Nat.mod_eq_of_lt basic
      have valid : character.toNat.isValidChar := character.valid
      have apart : ¬ IsHigh (UInt16.ofNat character.toNat) := by
        rw [IsHigh, value]
        rcases valid with low | ⟨high, -⟩ <;> omega
      have alone : ¬ IsLow (UInt16.ofNat character.toNat) := by
        rw [IsLow, value]
        rcases valid with low | ⟨high, -⟩ <;> omega
      rw [List.singleton_append, decodeUtf16.eq_def]
      simp only [if_neg apart, if_neg alone]
      rw [ih, value, Char.ofNat_toNat]
    · generalize top : (character.toNat - 0x10000) / 1024 = front
      generalize bottom : (character.toNat - 0x10000) % 1024 = back
      have highValue : (UInt16.ofNat (0xd800 + front)).toNat = 0xd800 + front := by
        rw [UInt16.toNat_ofNat']
        exact Nat.mod_eq_of_lt (by omega)
      have lowValue : (UInt16.ofNat (0xdc00 + back)).toNat = 0xdc00 + back := by
        rw [UInt16.toNat_ofNat']
        exact Nat.mod_eq_of_lt (by omega)
      have high : IsHigh (UInt16.ofNat (0xd800 + front)) := by
        rw [IsHigh, highValue]
        omega
      have low : IsLow (UInt16.ofNat (0xdc00 + back)) := by
        rw [IsLow, lowValue]
        omega
      have joined :
          joinedPoint (UInt16.ofNat (0xd800 + front)) (UInt16.ofNat (0xdc00 + back)) =
            character.toNat := by
        rw [joinedPoint_eq, highValue, lowValue, Nat.add_sub_cancel_left,
          Nat.add_sub_cancel_left]
        omega
      rw [List.cons_append, List.singleton_append, decodeUtf16.eq_def]
      simp only [if_pos high, if_pos low]
      rw [joined, ih, Char.ofNat_toNat]

/--
A name is transcoded into the UTF-8 of the text it stands for exactly when its
pairs are joined rightly.  The texts of two such names are kept apart.
-/
theorem utf16ToUtf8_eq_iff (name : List UInt16) :
    (utf16ToUtf8 name = (decodeUtf16 name).flatMap String.utf8EncodeChar ↔
      KeepsPairs name) ∧
    ∀ other, WellFormedUtf16 name → WellFormedUtf16 other →
      KeepsPairs name → KeepsPairs other →
        utf16ToUtf8 name = utf16ToUtf8 other → name = other := by
  have unique {left right : List Char}
      (equal : left.flatMap String.utf8EncodeChar = right.flatMap String.utf8EncodeChar) :
      left = right :=
    utf8EncodeChar_prefixFree.flatMap_inj (fun _ _ => trivial) (fun _ _ => trivial) equal
  constructor
  · rw [utf16ToUtf8_eq_seenChars, ← seenChars_eq_iff]
    exact ⟨unique, fun same => by rw [same]⟩
  · rintro other ⟨text, rfl⟩ ⟨text', rfl⟩ kept kept' equal
    rw [utf16ToUtf8_eq_seenChars, utf16ToUtf8_eq_seenChars,
      (seenChars_eq_iff _).mpr kept, (seenChars_eq_iff _).mpr kept',
      decodeUtf16_units, decodeUtf16_units] at equal
    rw [unique equal]

/-- The names of two characters of the first plane are kept and kept apart. -/
theorem utf16ToUtf8_eq_iff_faces :
    utf16ToUtf8 [0xd83d, 0xde00] =
        (decodeUtf16 [0xd83d, 0xde00]).flatMap String.utf8EncodeChar ∧
      utf16ToUtf8 [0xd83d, 0xde00] ≠ utf16ToUtf8 [0xd83d, 0xde01] := by
  obtain ⟨kept, apart⟩ := utf16ToUtf8_eq_iff [0xd83d, 0xde00]
  refine ⟨kept.mpr (by decide +kernel), fun equal => ?_⟩
  have same := apart [0xd83d, 0xde01] ⟨[Char.ofNat 0x1f600], by decide +kernel⟩
    ⟨[Char.ofNat 0x1f601], by decide +kernel⟩ (by decide +kernel) (by decide +kernel) equal
  exact absurd same (by decide)

/--
U+10000 and U+20000 are transcoded alike, and a high surrogate takes the unit
`0xfc00` for its partner.
-/
theorem utf16ToUtf8_confuses :
    WellFormedUtf16 [0xd800, 0xdc00] ∧ WellFormedUtf16 [0xd840, 0xdc00] ∧
      utf16ToUtf8 [0xd800, 0xdc00] = utf16ToUtf8 [0xd840, 0xdc00] ∧
      utf16ToUtf8 [0xd840, 0xdc00] ≠
        (decodeUtf16 [0xd840, 0xdc00]).flatMap String.utf8EncodeChar ∧
      utf16ToUtf8 [0xd800, 0xfc00] ≠
        (decodeUtf16 [0xd800, 0xfc00]).flatMap String.utf8EncodeChar := by
  refine ⟨⟨[Char.ofNat 0x10000], ?_⟩, ⟨[Char.ofNat 0x20000], ?_⟩, ?_, ?_, ?_⟩ <;>
    decide +kernel

end Ntfs2Btrfs
