import Ntfs2Btrfs.Transcoding
import Mathlib.Data.List.DropRight

/-!
# The volume label

`set_volume_label` takes the name of the NTFS volume for the label of the
superblock.  Its view of the name has as many units as the name has bytes, so it
reads on behind the name unless there is none.  A label that is too long is cut
to 255 bytes, and then every byte at its end that is not ASCII is removed.
-/

namespace Ntfs2Btrfs

open ByteStore
open PrefixCode

/-! ## `set_volume_label` -/

/-- `sb.label.size()`. -/
def labelSize : Nat := 0x100

/-- The addresses behind the start of a buffer that a view of units reads. -/
def viewAddresses (units : Nat) : List Nat :=
  (List.range units).flatMap fun index => [2 * index, 2 * index + 1]

/-- A view of units at the start of a buffer, in the memory from there on. -/
def unitView (memory : Store) (units : Nat) : List UInt16 :=
  (List.range units).map fun index => UInt16.ofNat (unle (memory.read (2 * index) 2))

/-- A view is determined by the bytes at its addresses, and determines them. -/
theorem unitView_eq_iff {left right : Store} {units : Nat} :
    unitView left units = unitView right units ↔
      ∀ address ∈ viewAddresses units, left address = right address := by
  have value (memory : Store) (index : Nat) :
      (UInt16.ofNat (unle (memory.read (2 * index) 2))).toNat =
        (memory (2 * index)).toNat + 256 * (memory (2 * index + 1)).toNat := by
    have first := (memory (2 * index)).toNat_lt
    have second := (memory (2 * index + 1)).toNat_lt
    have bytes : memory.read (2 * index) 2 =
        [memory (2 * index), memory (2 * index + 1)] := rfl
    rw [UInt16.toNat_ofNat', bytes, unle, unle, unle, Nat.mul_zero, Nat.add_zero]
    exact Nat.mod_eq_of_lt (by omega)
  have unit (index : Nat) :
      UInt16.ofNat (unle (left.read (2 * index) 2)) =
          UInt16.ofNat (unle (right.read (2 * index) 2)) ↔
        left (2 * index) = right (2 * index) ∧
          left (2 * index + 1) = right (2 * index + 1) := by
    have bound := (left (2 * index)).toNat_lt
    have bound' := (right (2 * index)).toNat_lt
    rw [← UInt16.toNat_inj, value, value, ← UInt8.toNat_inj, ← UInt8.toNat_inj]
    omega
  unfold unitView viewAddresses
  simp only [List.map_inj_left, unit, List.mem_flatMap, List.mem_cons, List.not_mem_nil,
    or_false]
  constructor
  · rintro same address ⟨index, member, rfl | rfl⟩
    · exact (same index member).1
    · exact (same index member).2
  · intro same index member
    exact ⟨same _ ⟨index, member, Or.inl rfl⟩, same _ ⟨index, member, Or.inr rfl⟩⟩

/-- The number of units `set_volume_label` gives the view of a name. -/
def labelUnits (size : Nat) : Nat := size

/-- A byte of a sequence of more than one byte. -/
def isMultibyte (byte : UInt8) : Bool :=
  byte.toNat &&& 0x80 != 0

/-- The label made of a name in UTF-8: it is cut, and its end is removed. -/
def shortenLabel (vn : Bytes) : Bytes :=
  if vn.length ≥ labelSize then (vn.take (labelSize - 1)).rdropWhile isMultibyte
  else vn

/-- `set_volume_label`, on the memory from the start of the name on. -/
def setVolumeLabel (memory : Store) (size : Nat) (label : Bytes) : Bytes :=
  if size = 0 then label
  else
    let vn := shortenLabel (utf16ToUtf8 (unitView memory (labelUnits size)))
    if vn = [] then label else patch label 0 (vn ++ [0])

/-- The label of the cleared superblock. -/
def clearedLabel : Bytes := List.replicate labelSize 0

/-! ## The label that a name should give -/

/-- The longest initial part of a text that leaves room for a zero. -/
def labelText (text : List Char) : Bytes :=
  (fitting Char.utf8Size (labelSize - 1) text).flatMap String.utf8EncodeChar

/-- A label holds a text and a zero after it. -/
def HoldsText (label text : Bytes) : Prop :=
  text ++ [0] <+: label

/--
The label is set from the bytes of the name only, whatever follows them in
memory, and holds the text of the name.
-/
structure LabelSet (value : Bytes) : Prop where
  inside : ∀ address ∈ viewAddresses (labelUnits value.length), address < value.length
  holds : ∀ memory : Store, memory.read 0 value.length = value →
    HoldsText (setVolumeLabel memory value.length clearedLabel)
      (labelText (decodeUtf16 (unitView memory (value.length / 2))))

/--
The label is set rightly for the empty name only: the last byte the view reads of
another one lies behind the name.
-/
theorem labelSet_iff (value : Bytes) : LabelSet value ↔ value = [] := by
  constructor
  · intro set
    by_contra nonempty
    have positive := List.length_pos_iff.mpr nonempty
    have last : 2 * (value.length - 1) + 1 ∈ viewAddresses (labelUnits value.length) :=
      List.mem_flatMap.mpr ⟨value.length - 1,
        List.mem_range.mpr (Nat.sub_lt positive Nat.one_pos), by simp⟩
    have bound := set.inside _ last
    omega
  · rintro rfl
    refine ⟨fun address member => absurd member List.not_mem_nil, fun memory _ => ?_⟩
    exact ⟨List.replicate 255 0, rfl⟩

/-- The volume `A` gets the label `AB` when there is a `B` behind its name. -/
theorem labelSet_letter :
    ¬ LabelSet [0x41, 0] ∧
      (setVolumeLabel (Store.ofBytes [0x41, 0, 0x42, 0]) 2 clearedLabel).take 3 =
        [0x41, 0x42, 0] := by
  refine ⟨fun set => ?_, by decide +kernel⟩
  exact absurd (set.inside 3 (by decide)) (by decide)

/-! ## A label that is cut -/

theorem isMultibyte_iff (byte : UInt8) : isMultibyte byte = true ↔ 0x80 ≤ byte.toNat := by
  rw [isMultibyte, bne_iff_ne, ne_eq, (byte_tests byte.toNat byte.toNat_lt).1, Nat.not_lt]

theorem utf8EncodeChar_ascii {character : Char} (ascii : character.toNat < 0x80) :
    String.utf8EncodeChar character = [UInt8.ofNat character.toNat] := by
  rw [← encodePoint_toNat, encodePoint, if_pos ascii, sequence1]

theorem isMultibyte_ofNat
    {value mark : Nat} (fits : value + mark < 256) (marked : 0x80 ≤ mark) :
    isMultibyte (UInt8.ofNat (value + mark)) = true := by
  rw [isMultibyte_iff, toNat_ofNat_byte fits]
  exact marked.trans (Nat.le_add_left _ _)

/-- Every byte of a character outside ASCII is above ASCII. -/
theorem isMultibyte_of_mem
    {character : Char} (above : 0x80 ≤ character.toNat) {byte : UInt8}
    (member : byte ∈ String.utf8EncodeChar character) :
    isMultibyte byte = true := by
  have same : character.val.toNat = character.toNat := rfl
  unfold String.utf8EncodeChar at member
  simp only [same] at member
  generalize character.toNat = point at above member
  split_ifs at member with one two three
  · omega
  · simp only [List.mem_cons, List.not_mem_nil, or_false] at member
    rcases member with rfl | rfl <;> exact isMultibyte_ofNat (by omega) (by decide)
  · simp only [List.mem_cons, List.not_mem_nil, or_false] at member
    rcases member with rfl | rfl | rfl <;> exact isMultibyte_ofNat (by omega) (by decide)
  · simp only [List.mem_cons, List.not_mem_nil, or_false] at member
    rcases member with rfl | rfl | rfl | rfl <;>
      exact isMultibyte_ofNat (by omega) (by decide)

/-- Bytes above ASCII at the end are removed. -/
theorem rdropWhile_append_multibyte
    (front : Bytes) {tail : Bytes} (above : ∀ byte ∈ tail, isMultibyte byte = true) :
    (front ++ tail).rdropWhile isMultibyte = front.rdropWhile isMultibyte := by
  induction tail using List.reverseRecOn with
  | nil => rw [List.append_nil]
  | append_singleton rest byte ih =>
    rw [← List.append_assoc, List.rdropWhile_concat_pos _ _ _ (above byte (by simp)),
      ih fun other member => above other (by simp [member])]

/-- The end of a text is removed up to its last character in ASCII. -/
theorem rdropWhile_flatMap (text : List Char) :
    (text.flatMap String.utf8EncodeChar).rdropWhile isMultibyte =
      (text.rdropWhile fun character => decide (0x80 ≤ character.toNat)).flatMap
        String.utf8EncodeChar := by
  induction text using List.reverseRecOn with
  | nil => rfl
  | append_singleton rest character ih =>
    rw [List.flatMap_append, List.flatMap_singleton, List.rdropWhile_concat]
    split_ifs with above
    · rw [rdropWhile_append_multibyte _ fun byte =>
        isMultibyte_of_mem (of_decide_eq_true above), ih]
    · have ascii : character.toNat < 0x80 := by
        rw [decide_eq_true_eq] at above
        omega
      have single : ¬ isMultibyte (UInt8.ofNat character.toNat) = true := by
        rw [isMultibyte_iff, toNat_ofNat_byte (by omega)]
        omega
      rw [utf8EncodeChar_ascii ascii, List.rdropWhile_concat_neg _ _ _ single,
        List.flatMap_append, List.flatMap_singleton, utf8EncodeChar_ascii ascii]

/-- A part of the bytes of a character that lacks some of them is above ASCII. -/
theorem isMultibyte_of_mem_take
    {character : Char} {count : Nat} (positive : 0 < count)
    (short : count < (String.utf8EncodeChar character).length) {byte : UInt8}
    (member : byte ∈ (String.utf8EncodeChar character).take count) :
    isMultibyte byte = true := by
  refine isMultibyte_of_mem ?_ (List.mem_of_mem_take member)
  by_contra ascii
  rw [utf8EncodeChar_ascii (by omega), List.length_singleton] at short
  omega

/--
A text that is too long gives the right label exactly when what fits of it ends
with a character in ASCII, or nothing fits.
-/
theorem shortenLabel_eq_iff (text : List Char) :
    shortenLabel (text.flatMap String.utf8EncodeChar) = labelText text ↔
      (text.flatMap String.utf8EncodeChar).length < labelSize ∨
        ∀ last ∈ (fitting Char.utf8Size (labelSize - 1) text).getLast?,
          last.toNat < 0x80 := by
  have sizes : (fun character => (String.utf8EncodeChar character).length) = Char.utf8Size :=
    funext String.length_utf8EncodeChar
  have length : (text.flatMap String.utf8EncodeChar).length =
      (text.map Char.utf8Size).sum := by
    rw [List.length_flatMap, sizes]
  rw [shortenLabel, labelText]
  split_ifs with long
  · obtain ⟨part, equal, shape⟩ :=
      take_flatMap String.utf8EncodeChar text (labelSize - 1)
    rw [sizes] at equal
    have above : ∀ byte ∈ part, isMultibyte byte = true := by
      rcases shape with rfl | ⟨character, -, count, positive, short, rfl⟩
      · exact fun byte member => absurd member List.not_mem_nil
      · exact fun byte => isMultibyte_of_mem_take positive short
    rw [equal, rdropWhile_append_multibyte _ above, rdropWhile_flatMap,
      or_iff_right (Nat.not_lt.mpr long)]
    generalize fitting Char.utf8Size (labelSize - 1) text = kept
    constructor
    · intro same last member
      have whole := utf8EncodeChar_prefixFree.flatMap_inj
        (fun _ _ => trivial) (fun _ _ => trivial) same
      obtain ⟨front, rfl⟩ := List.getLast?_eq_some_iff.mp member
      have ends := List.rdropWhile_eq_self_iff.mp whole (by simp)
      rw [List.getLast_append_singleton, decide_eq_true_eq] at ends
      omega
    · intro ascii
      refine congrArg (List.flatMap String.utf8EncodeChar) ?_
      refine List.rdropWhile_eq_self_iff.mpr fun nonempty => ?_
      have last := ascii _ (List.getLast?_eq_getLast_of_ne_nil nonempty)
      rw [decide_eq_true_eq]
      omega
  · rw [fitting_eq_self]
    · exact iff_of_true rfl (Or.inl (Nat.lt_of_not_le long))
    · rw [← length]
      exact Nat.le_sub_one_of_lt (Nat.lt_of_not_le long)

end Ntfs2Btrfs
