import Ntfs2Btrfs.Lib.ByteStore

/-!
# File extents

The items that say where the data of a file lies on the device.
-/

namespace Ntfs2Btrfs

open ByteStore

/-- A `btrfs_file_extent_item`. -/
structure FileExtentItem where
  generation : Nat
  ramBytes : Nat
  compression : Nat
  encryption : Nat
  otherEncoding : Nat
  type : Nat
  diskBytenr : Nat
  diskNumBytes : Nat
  offset : Nat
  numBytes : Nat
deriving DecidableEq, Repr

/-- `btrfs_compression_type::none`. -/
def compressionNone : Nat := 0

/-- `btrfs_file_extent_item_type::inline_extent`. -/
def extentInline : Nat := 0

/-- `btrfs_file_extent_item_type::reg`. -/
def extentReg : Nat := 1

/-- `btrfs_file_extent_item_type::prealloc`. -/
def extentPrealloc : Nat := 2

namespace FileExtentItem

variable (item : FileExtentItem)

/-- The fields of the item as they are stored. -/
def bytes : Bytes :=
  le 8 item.generation ++ (le 8 item.ramBytes ++ (le 1 item.compression ++
    (le 1 item.encryption ++ (le 2 item.otherEncoding ++ (le 1 item.type ++
      (le 8 item.diskBytenr ++ (le 8 item.diskNumBytes ++
        (le 8 item.offset ++ le 8 item.numBytes))))))))

/-- Every field fits its width. -/
structure Fits : Prop where
  generation : item.generation < 256 ^ 8
  ramBytes : item.ramBytes < 256 ^ 8
  compression : item.compression < 256 ^ 1
  encryption : item.encryption < 256 ^ 1
  otherEncoding : item.otherEncoding < 256 ^ 2
  type : item.type < 256 ^ 1
  diskBytenr : item.diskBytenr < 256 ^ 8
  diskNumBytes : item.diskNumBytes < 256 ^ 8
  offset : item.offset < 256 ^ 8
  numBytes : item.numBytes < 256 ^ 8

end FileExtentItem

/-- The `btrfs_file_extent_item` at the start of a byte string. -/
def readFileExtentItem (data : Bytes) : FileExtentItem where
  generation := unle (slice data 0 8)
  ramBytes := unle (slice data 8 8)
  compression := unle (slice data 16 1)
  encryption := unle (slice data 17 1)
  otherEncoding := unle (slice data 18 2)
  type := unle (slice data 20 1)
  diskBytenr := unle (slice data 21 8)
  diskNumBytes := unle (slice data 29 8)
  offset := unle (slice data 37 8)
  numBytes := unle (slice data 45 8)

/-- An item whose fields fit is read back. -/
theorem readFileExtentItem_bytes
    {item : FileExtentItem} (fits : item.Fits) :
    readFileExtentItem item.bytes = item := by
  have last {length : Nat} {field : Bytes} (width : field.length = length) :
      slice field 0 length = field := by
    rw [slice, List.drop_zero, List.take_of_length_le width.le]
  rw [readFileExtentItem, FileExtentItem.bytes]
  simp only [slice_first _ (length_le _ _), last (length_le _ _),
    slice_behind (length_le _ _), Nat.reduceLeDiff, Nat.reduceSub, Nat.le_refl,
    unle_le_of_lt fits.generation, unle_le_of_lt fits.ramBytes,
    unle_le_of_lt fits.compression, unle_le_of_lt fits.encryption,
    unle_le_of_lt fits.otherEncoding, unle_le_of_lt fits.type,
    unle_le_of_lt fits.diskBytenr, unle_le_of_lt fits.diskNumBytes,
    unle_le_of_lt fits.offset, unle_le_of_lt fits.numBytes]

end Ntfs2Btrfs
