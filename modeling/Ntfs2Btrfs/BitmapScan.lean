import Ntfs2Btrfs.Lib.BitRuns
import Ntfs2Btrfs.Lib.ByteStore

/-!
# Reading allocation bitmaps

The conversion reads bitmaps in three places with the same loop: whole 32-bit
words first, with a shortcut for words of equal bits, then single bytes.  The
definitions here are that loop, with what is done with a run as a parameter.

A byte of the tail whose bits all continue the current run advances the
position by one and not by eight.  `scannedBits` is the sequence of bits that
the loop therefore sees; it is the sequence of bits of the bitmap whenever the
length is a multiple of four bytes.
-/

namespace Ntfs2Btrfs

open Extents
open BitRuns
open ByteStore

variable {α : Type*}

/-! ## The loop -/

/-- The loop over the `count` low bits of a word or of a byte. -/
def scanBits (emit : α → Extent → α) : Nat → Scan α → Nat → Scan α
  | 0, scan, _ => scan
  | count + 1, scan, value =>
      scanBits emit count (step emit scan (value % 2 = 1)) (value / 2)

/-- One turn of the loop over 32-bit words. -/
def scanWord (emit : α → Extent → α) (scan : Scan α) (value : Nat) : Scan α :=
  if (!scan.set ∧ value = 0) ∨ (scan.set ∧ value = 0xffffffff) then
    { scan with pos := scan.pos + 32 }
  else if !scan.set ∧ value = 0xffffffff then
    { scan with runStart := scan.pos, set := true, pos := scan.pos + 32 }
  else if scan.set ∧ value = 0 then
    { scan with out := scan.report emit, set := false, pos := scan.pos + 32 }
  else
    scanBits emit 32 scan value

/-- One turn of the loop over the remaining bytes. -/
def scanByte (emit : α → Extent → α) (scan : Scan α) (value : Nat) : Scan α :=
  if (!scan.set ∧ value = 0) ∨ (scan.set ∧ value = 0xff) then
    { scan with pos := scan.pos + 1 }
  else if !scan.set ∧ value = 0xff then
    { scan with runStart := scan.pos, set := true, pos := scan.pos + 8 }
  else if scan.set ∧ value = 0 then
    { scan with out := scan.report emit, set := false, pos := scan.pos + 8 }
  else
    scanBits emit 8 scan value

/-- The loop over words, followed by the loop over bytes. -/
def scanBytes (emit : α → Extent → α) : Scan α → Bytes → Scan α
  | scan, first :: second :: third :: fourth :: rest =>
      scanBytes emit (scanWord emit scan (unle [first, second, third, fourth]))
        rest
  | scan, tail =>
      tail.foldl (fun current byte => scanByte emit current byte.toNat) scan

/-- Read a whole bitmap. -/
def scanBitmap (emit : α → Extent → α) (out : α) (bitmap : Bytes) : α :=
  finish emit (scanBytes emit (Scan.initial out) bitmap)

/-! ## The bits that the loop sees -/

/-- The bits of a byte, least significant first. -/
def byteBits (byte : UInt8) : List Bool :=
  (List.range 8).map byte.toNat.testBit

/-- The bits of a bitmap. -/
def bitmapBits (bitmap : Bytes) : List Bool :=
  bitmap.flatMap byteBits

/--
The bits seen in the bytes after the last whole word.  `set` is the bit before
them.  A byte that repeats that bit eight times counts as a single bit.
-/
def tailBits : Bool → Bytes → List Bool
  | _, [] => []
  | set, byte :: rest =>
      if byte = (if set then 0xff else 0) then
        set :: tailBits set rest
      else
        byteBits byte ++ tailBits (byte.toNat.testBit 7) rest

/-- The bits seen in a bitmap, when `set` is the bit before it. -/
def scannedBitsFrom : Bool → Bytes → List Bool
  | _, first :: second :: third :: fourth :: rest =>
      bitmapBits [first, second, third, fourth] ++
        scannedBitsFrom (fourth.toNat.testBit 7) rest
  | set, tail => tailBits set tail

/-- The bits seen in a bitmap. -/
def scannedBits (bitmap : Bytes) : List Bool :=
  scannedBitsFrom false bitmap

/-- The cluster is in use according to the bitmap. -/
def ClusterInUse (bitmap : Bytes) (cluster : Nat) : Prop :=
  Marked (bitmapBits bitmap) cluster

instance (bitmap : Bytes) (cluster : Nat) :
    Decidable (ClusterInUse bitmap cluster) :=
  inferInstanceAs (Decidable (Marked _ _))

@[simp]
theorem length_byteBits (byte : UInt8) :
    (byteBits byte).length = 8 := by
  simp [byteBits]

@[simp]
theorem length_bitmapBits (bitmap : Bytes) :
    (bitmapBits bitmap).length = 8 * bitmap.length := by
  induction bitmap with
  | nil => rfl
  | cons byte rest induction =>
      simp only [bitmapBits] at induction
      simp only [bitmapBits, List.flatMap_cons, List.length_append,
        length_byteBits, List.length_cons, induction]
      omega

@[simp]
theorem bitmapBits_append (left right : Bytes) :
    bitmapBits (left ++ right) = bitmapBits left ++ bitmapBits right := by
  simp [bitmapBits]

/-- The numbering of a bitmap of whole words is the plain one. -/
theorem scannedBitsFrom_of_whole
    (bitmap : Bytes) (whole : 4 ∣ bitmap.length) (set : Bool) :
    scannedBitsFrom set bitmap = bitmapBits bitmap := by
  fun_induction scannedBitsFrom set bitmap with
  | case1 set first second third fourth rest induction =>
      have restWhole : 4 ∣ rest.length := by
        simp only [List.length_cons] at whole
        omega
      rw [induction restWhole, ← bitmapBits_append]
      rfl
  | case2 set tail short =>
      rcases tail with _ | ⟨first, _ | ⟨second, _ | ⟨third, _ | ⟨fourth, rest⟩⟩⟩⟩
      · rfl
      · simp at whole
      · simp at whole
      · simp at whole
      · exact (short first second third fourth rest rfl).elim

theorem scannedBits_of_whole
    {bitmap : Bytes} (whole : 4 ∣ bitmap.length) :
    scannedBits bitmap = bitmapBits bitmap :=
  scannedBitsFrom_of_whole bitmap whole false

theorem exists_marked_iff (bits : List Bool) :
    (∃ position, Marked bits position) ↔ true ∈ bits :=
  List.mem_iff_getElem?.symm

/-- A repeated byte counts for less, but never for nothing. -/
theorem true_mem_tailBits_iff (set : Bool) (tail : Bytes) :
    true ∈ tailBits set tail ↔ true ∈ bitmapBits tail := by
  induction tail generalizing set with
  | nil => rfl
  | cons byte rest induction =>
      rw [tailBits, show byte :: rest = [byte] ++ rest from rfl, bitmapBits_append,
        List.mem_append]
      have single : bitmapBits [byte] = byteBits byte := by
        simp [bitmapBits]
      rw [single]
      by_cases same : byte = (if set then 0xff else 0)
      · have repeated : true ∈ byteBits byte ↔ true = set := by
          rw [same]
          cases set <;> decide
        rw [if_pos same, List.mem_cons, induction, repeated]
      · rw [if_neg same, List.mem_append, induction]

theorem true_mem_scannedBitsFrom_iff (set : Bool) (bitmap : Bytes) :
    true ∈ scannedBitsFrom set bitmap ↔ true ∈ bitmapBits bitmap := by
  fun_induction scannedBitsFrom set bitmap with
  | case1 set first second third fourth rest induction =>
      rw [List.mem_append, induction, ← List.mem_append, ← bitmapBits_append]
      rfl
  | case2 set tail short => exact true_mem_tailBits_iff set tail

/-- The loop sees a set bit whenever there is one. -/
theorem exists_marked_scannedBits_iff (bitmap : Bytes) :
    (∃ position, Marked (scannedBits bitmap) position) ↔
      ∃ position, Marked (bitmapBits bitmap) position := by
  rw [exists_marked_iff, exists_marked_iff, scannedBits,
    true_mem_scannedBitsFrom_iff]

/-! ## The loop reads these bits -/

section Scan

variable (emit : α → Extent → α)

theorem scanBits_eq (count : Nat) (scan : Scan α) (value : Nat) :
    scanBits emit count scan value =
      read emit scan ((List.range count).map value.testBit) := by
  induction count generalizing scan value with
  | zero => rfl
  | succ count induction =>
      have later :
          (List.range count).map (value / 2).testBit =
            (List.range count).map (value.testBit ∘ Nat.succ) := by
        simp [Function.comp_def, Nat.testBit_succ]
      rw [scanBits, induction, List.range_succ_eq_map, List.map_cons,
        List.map_map, read_cons, ← later, Nat.testBit_zero]

/-- The bits of a little-endian number are those of its bytes. -/
theorem testBit_unle (bytes : Bytes) :
    (List.range (8 * bytes.length)).map (unle bytes).testBit =
      bitmapBits bytes := by
  induction bytes with
  | nil => rfl
  | cons byte rest induction =>
      have split (index : Nat) :
          (unle (byte :: rest)).testBit index =
            if index < 8 then byte.toNat.testBit index
            else (unle rest).testBit (index - 8) := by
        have parts := Nat.testBit_two_pow_mul_add (unle rest)
          (by simpa using byte.toNat_lt : byte.toNat < 2 ^ 8) index
        rw [← parts, unle]
        congr 1
        omega
      have lengths : 8 * (byte :: rest).length = 8 + 8 * rest.length := by
        rw [List.length_cons]
        omega
      have low :
          (List.range 8).map (unle (byte :: rest)).testBit = byteBits byte := by
        apply List.map_congr_left
        intro index member
        rw [split, if_pos (List.mem_range.mp member)]
      have high :
          (List.range (8 * rest.length)).map
              ((unle (byte :: rest)).testBit ∘ fun index => 8 + index) =
            bitmapBits rest := by
        rw [← induction]
        apply List.map_congr_left
        intro index _
        simp [split]
      rw [lengths, List.range_add, List.map_append, List.map_map, low, high]
      rfl

theorem scanWord_eq (scan : Scan α) (value : Nat) :
    scanWord emit scan value =
      read emit scan ((List.range 32).map value.testBit) := by
  have clear : (List.range 32).map (Nat.testBit 0) = List.replicate 32 false := by
    decide
  have full :
      (List.range 32).map (Nat.testBit 0xffffffff) = List.replicate 32 true := by
    decide
  rw [scanWord]
  split_ifs with same opens closes
  · rcases same with ⟨outside, rfl⟩ | ⟨inside, rfl⟩
    · have outside' : scan.set = false := by simpa using outside
      rw [clear, ← outside', read_replicate_set]
    · have run := read_replicate_set emit scan 32
      rw [inside] at run
      rw [full, run, inside]
  · obtain ⟨outside, rfl⟩ := opens
    rw [full, read_replicate_true emit scan (by simpa using outside) 31]
  · obtain ⟨inside, rfl⟩ := closes
    rw [clear, read_replicate_false emit scan inside 31]
  · exact scanBits_eq emit 32 scan value

/-- The fast path of the byte loop is the one place where the position is off. -/
theorem scanByte_eq (scan : Scan α) (byte : UInt8) :
    scanByte emit scan byte.toNat =
      read emit scan
        (if byte = (if scan.set then 0xff else 0) then [scan.set]
          else byteBits byte) := by
  have clear : byte.toNat = 0 ↔ byte = 0 := by
    rw [← UInt8.toNat_inj]
    rfl
  have full : byte.toNat = 0xff ↔ byte = 0xff := by
    rw [← UInt8.toNat_inj]
    rfl
  have clearBits : byteBits 0 = List.replicate 8 false := by
    decide
  have fullBits : byteBits 0xff = List.replicate 8 true := by
    decide
  have single := read_replicate_set emit scan 1
  rw [scanByte]
  by_cases inside : scan.set = true
  · simp only [clear, full, inside, Bool.not_true, Bool.false_eq_true, false_and, true_and,
      false_or, if_true, if_false]
    split_ifs with same closes
    · rw [inside] at single
      exact single.symm
    · rw [closes, clearBits, read_replicate_false emit scan inside 7]
    · exact scanBits_eq emit 8 scan byte.toNat
  · have outside : scan.set = false := by simpa using inside
    simp only [clear, full, outside, Bool.not_false, Bool.false_eq_true, false_and, true_and,
      or_false, if_false]
    split_ifs with same opens
    · rw [outside] at single
      exact single.symm
    · rw [opens, fullBits, read_replicate_true emit scan outside 7]
    · exact scanBits_eq emit 8 scan byte.toNat

theorem scanTail_eq (scan : Scan α) (tail : Bytes) :
    tail.foldl (fun current byte => scanByte emit current byte.toNat) scan =
      read emit scan (tailBits scan.set tail) := by
  induction tail generalizing scan with
  | nil => rfl
  | cons byte rest induction =>
      rw [List.foldl_cons, induction, scanByte_eq, tailBits, read_set]
      by_cases same : byte = (if scan.set then 0xff else 0)
      · rw [if_pos same, if_pos same]
        rfl
      · have last : (byteBits byte).getLast? = some (byte.toNat.testBit 7) := rfl
        rw [if_neg same, if_neg same, last, read_append]
        rfl

theorem scanBytes_eq (scan : Scan α) (bitmap : Bytes) :
    scanBytes emit scan bitmap =
      read emit scan (scannedBitsFrom scan.set bitmap) := by
  fun_induction scanBytes emit scan bitmap with
  | case1 scan first second third fourth rest induction =>
      have word := testBit_unle [first, second, third, fourth]
      have last :
          (bitmapBits [first, second, third, fourth]).getLast? =
            some (fourth.toNat.testBit 7) := rfl
      have bits :
          scanWord emit scan (unle [first, second, third, fourth]) =
            read emit scan (bitmapBits [first, second, third, fourth]) := by
        rw [scanWord_eq, ← word]
        rfl
      rw [induction, bits, read_set, last, scannedBitsFrom, read_append]
      rfl
  | case2 scan tail short =>
      rw [scanTail_eq, scannedBitsFrom]
      exact short

/-- Reading a bitmap folds over the runs of the bits that the loop sees. -/
theorem scanBitmap_eq (out : α) (bitmap : Bytes) :
    scanBitmap emit out bitmap = (runs (scannedBits bitmap)).foldl emit out := by
  rw [scanBitmap, scanBytes_eq, ← finish_read_initial]
  rfl

end Scan

/-! ## `parse_bitmap` -/

/-- The runs of a bitmap, as a list. -/
def parseBitmap (bitmap : Bytes) : List Extent :=
  scanBitmap push [] bitmap

theorem parseBitmap_eq (bitmap : Bytes) :
    parseBitmap bitmap = runs (scannedBits bitmap) := by
  have collect (list : List Extent) : ∀ out : List Extent,
      list.foldl push out = out ++ list := by
    induction list with
    | nil => simp
    | cons run rest induction => simp [push, induction]
  rw [parseBitmap, scanBitmap_eq, collect, List.nil_append]

example : parseBitmap [0x01, 0x00, 0x00, 0x00, 0x00, 0xff] = [⟨0, 1⟩, ⟨33, 8⟩] := by
  decide

end Ntfs2Btrfs
