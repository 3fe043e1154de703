import Ntfs2Btrfs.Transcoding

/-!
# The names that are written are UTF-8

`utf16_to_utf8_len` and `utf16_to_utf8_span` agree on every name, and what is written
is well-formed.  `fix_truncated_utf8` looks at the last three bytes of a string that
was cut; with 255 bytes they are there, and what it leaves are the whole code points.
-/

namespace Ntfs2Btrfs

open ByteStore
open PrefixCode

/-- Well-formed UTF-8 is the UTF-8 of a text. -/
def WellFormedUtf8 (bytes : Bytes) : Prop :=
  ∃ text : List Char, bytes = text.flatMap String.utf8EncodeChar

/-- `s[s.length() - places]`, where that is inside the string. -/
def byteFromEnd (s : Bytes) (places : Nat) : Option Nat :=
  if places ≤ s.length then (s[s.length - places]?).map UInt8.toNat else none

/-- `pop_back` a number of times. -/
def popBack : Nat → Bytes → Option Bytes
  | 0, s => some s
  | count + 1, s => if s = [] then none else popBack count s.dropLast

/-- `fix_truncated_utf8`, which has no result when it leaves its string. -/
def fixTruncatedUtf8Checked (s : Bytes) : Option Bytes :=
  (byteFromEnd s 1).bind fun last =>
    if last &&& 0x80 = 0 then some s -- one-byte sequence
    else if last &&& 0xc0 = 0xc0 then popBack 1 s
    else (byteFromEnd s 2).bind fun second =>
      if second &&& 0xe0 = 0xd0 then some s -- meant for a two-byte sequence
      else if second &&& 0xe0 = 0xe0 then popBack 2 s
      else (byteFromEnd s 3).bind fun third =>
        if third &&& 0xf0 = 0xe0 then some s -- full three-byte sequence
        else if third &&& 0xf0 = 0xf0 then popBack 3 s
        else some s

theorem byteFromEnd_eq
    {s : Bytes} {places : Nat} (positive : 0 < places) (inside : places ≤ s.length) :
    byteFromEnd s places = some (fromEnd s places) := by
  have early : s.length - places < s.length := by omega
  rw [byteFromEnd, if_pos inside, fromEnd, List.getElem?_eq_getElem early,
    List.getD_eq_getElem _ _ early]
  rfl

theorem popBack_succ {count : Nat} {s : Bytes} (inside : count < s.length) :
    popBack (count + 1) s = popBack count s.dropLast := by
  rw [popBack, if_neg]
  rintro rfl
  exact Nat.not_lt_zero count inside

/-- A string of three bytes or more is not left. -/
theorem fixTruncatedUtf8Checked_eq {s : Bytes} (long : 3 ≤ s.length) :
    fixTruncatedUtf8Checked s = some (fixTruncatedUtf8 s) := by
  have one : popBack 1 s = some s.dropLast := popBack_succ (by omega)
  have two : popBack 2 s = some s.dropLast.dropLast := by
    rw [popBack_succ (by omega), popBack_succ (by rw [List.length_dropLast]; omega), popBack]
  have three : popBack 3 s = some s.dropLast.dropLast.dropLast := by
    rw [popBack_succ (by omega), popBack_succ (by rw [List.length_dropLast]; omega),
      popBack_succ (by rw [List.length_dropLast, List.length_dropLast]; omega), popBack]
  rw [fixTruncatedUtf8Checked, fixTruncatedUtf8, byteFromEnd_eq (by decide) (by omega),
    byteFromEnd_eq (by decide) (by omega), byteFromEnd_eq (by decide) (by omega)]
  simp only [Option.bind_some, one, two, three]
  split_ifs <;> rfl

/-! ## Whole code points -/

/-- The longest initial part with a number of bytes that is well-formed. -/
structure IsLongestWhole (s : Bytes) (room : Nat) (kept : Bytes) : Prop where
  initialPart : kept <+: s
  fits : kept.length ≤ room
  wellFormed : WellFormedUtf8 kept
  longest : ∀ other, other <+: s → other.length ≤ room → WellFormedUtf8 other → other <+: kept

theorem length_utf8Encode (text : List Char) :
    (text.flatMap String.utf8EncodeChar).length =
      (text.map fun character => pointSize character.toNat).sum := by
  rw [List.length_flatMap]
  refine congrArg List.sum (List.map_congr_left fun character _ => ?_)
  rw [← encodePoint_toNat, length_encodePoint]

/-- The characters that fit are the longest whole part. -/
theorem isLongestWhole_fitting (text : List Char) (room : Nat) :
    IsLongestWhole (text.flatMap String.utf8EncodeChar) room
      ((fitting (fun character => pointSize character.toNat) room text).flatMap
        String.utf8EncodeChar) := by
  refine ⟨?_, ?_, ⟨_, rfl⟩, ?_⟩
  · obtain ⟨back, equal⟩ :=
      fitting_initialPart (fun character : Char => pointSize character.toNat) text room
    refine ⟨back.flatMap String.utf8EncodeChar, ?_⟩
    rw [← List.flatMap_append, equal]
  · rw [length_utf8Encode]
    exact sum_fitting_le _ text room
  · rintro other begins small ⟨part, rfl⟩
    have partText : part <+: text :=
      utf8EncodeChar_prefixFree.initialPart (fun _ _ => trivial) (fun _ _ => trivial) begins
    rw [length_utf8Encode] at small
    obtain ⟨back, equal⟩ := initialPart_fitting partText small
    exact ⟨back.flatMap String.utf8EncodeChar, by rw [← List.flatMap_append, equal]⟩

/--
A string of well-formed UTF-8 that is cut to 255 bytes is repaired without an access
outside of it, and its longest part of whole code points is left.
-/
theorem fixTruncatedUtf8_longest
    (s : Bytes) (wellFormed : WellFormedUtf8 s) (long : 255 < s.length) :
    ∃ kept, fixTruncatedUtf8Checked (s.take 255) = some kept ∧ IsLongestWhole s 255 kept := by
  obtain ⟨text, rfl⟩ := wellFormed
  have points (text : List Char) :
      text.flatMap String.utf8EncodeChar = (text.map Char.toNat).flatMap encodePoint := by
    rw [List.flatMap_map]
    exact List.flatMap_congr fun character _ => (encodePoint_toNat character).symm
  have small : ∀ point ∈ text.map Char.toNat, point < unicodeLimit := by
    intro point member
    obtain ⟨character, -, rfl⟩ := List.mem_map.mp member
    exact toNat_lt_limit character
  have size : ((text.flatMap String.utf8EncodeChar).take 255).length = 255 := by
    rw [List.length_take]
    omega
  have repaired : fixTruncatedUtf8 ((text.flatMap String.utf8EncodeChar).take 255) =
      (fitting (fun character => pointSize character.toNat) 255 text).flatMap
        String.utf8EncodeChar := by
    rw [points] at long
    rw [points, points, fixTruncatedUtf8_take small (by decide) long, fitting_map]
  refine ⟨_, fixTruncatedUtf8Checked_eq (by rw [size]; decide), ?_⟩
  rw [repaired]
  exact isLongestWhole_fitting text 255

/-- A name of 128 letters of two bytes each loses half a letter, and then the other half. -/
theorem fixTruncatedUtf8_longest_letters :
    ∃ kept,
      fixTruncatedUtf8Checked
          (((List.replicate 128 'é').flatMap String.utf8EncodeChar).take 255) = some kept ∧
        IsLongestWhole ((List.replicate 128 'é').flatMap String.utf8EncodeChar) 255 kept :=
  fixTruncatedUtf8_longest _ ⟨_, rfl⟩ (by decide +kernel)

end Ntfs2Btrfs
