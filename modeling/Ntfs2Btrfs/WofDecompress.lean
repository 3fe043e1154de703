import Ntfs2Btrfs.Basic
import Ntfs2Btrfs.Lib.ByteStore

/-!
# Files compressed by the overlay filter

A compressed file is cut into chunks of one size.  Each is stored compressed, or
as it is where that saves nothing, and a table in front of the chunks says where
every chunk but the first starts.  `do_xpress_decompress` and
`do_lzx_decompress` write the chunks one after the other into a buffer that is
not cleared.  They count the chunks with 32 bits, and the rounding overflows for
the files whose length is less than one chunk below `2 ^ 32`.
-/

namespace Ntfs2Btrfs

open ByteStore

/-! ## The code -/

/-- Why there is no text: an access outside of a buffer, or an error of the decompressor. -/
inductive WofStop where
  | outside
  | overrun
  | failed (err : Nat)
deriving DecidableEq, Repr

/-- `xpress_decompress` or `lzx_decompress`: a text of the given length, or an error. -/
abbrev Decompressor := Bytes → Nat → Except Nat Bytes

/-- Read inside the compressed data. -/
def wofRead (compdata : Bytes) (offset length : Nat) : Except WofStop Bytes :=
  if offset + length ≤ compdata.length then .ok (slice compdata offset length)
  else .error .outside

/-- Write inside the buffer of the text. -/
def wofWrite (ret : Bytes) (offset : Nat) (text : Bytes) : Except WofStop Bytes :=
  if offset + text.length ≤ ret.length then .ok (patch ret offset text)
  else .error .overrun

/-- An entry of the table: `offsets[index]`. -/
def wofOffset (compdata : Bytes) (index : Nat) : Except WofStop Nat :=
  (wofRead compdata (4 * index) 4).map unle

/-- Subtraction of 32 bits. -/
def halfSub (left right : Nat) : Nat :=
  (left + 2 ^ 32 - right) % 2 ^ 32

/-- `num_chunks`: the sum has 32 bits. -/
def numChunks (size chunkSize : Nat) : Nat :=
  (size + chunkSize - 1) % 2 ^ 32 / chunkSize

/-- The length of the table. -/
def tableLength (size chunkSize : Nat) : Nat :=
  wordSub (numChunks size chunkSize) 1 * 4 % wordModulus

/-- `data.length()`. -/
def wofDataLength (compdata : Bytes) (size chunkSize : Nat) : Nat :=
  wordSub compdata.length (tableLength size chunkSize) % 2 ^ 32

/-- `off`. -/
def chunkStart (compdata : Bytes) (index : Nat) : Except WofStop Nat :=
  if index = 0 then .ok 0 else wofOffset compdata (index - 1)

/-- `complen`. -/
def chunkLength
    (compdata : Bytes) (size chunkSize index : Nat) : Except WofStop Nat :=
  if index = 0 then
    if numChunks size chunkSize > 1 then wofOffset compdata 0
    else .ok (wofDataLength compdata size chunkSize)
  else if index = numChunks size chunkSize - 1 then
    (wofOffset compdata (index - 1)).map
      (halfSub (wofDataLength compdata size chunkSize))
  else do
    let stop ← wofOffset compdata index
    let start ← wofOffset compdata (index - 1)
    return halfSub stop start

/-- The length of the text of a chunk. -/
def textLength (size chunkSize index : Nat) : Nat :=
  if index = numChunks size chunkSize - 1 then wordSub size (index * chunkSize)
  else chunkSize

/-- The round of the loop for one chunk. -/
def wofChunk
    (decompress : Decompressor) (compdata : Bytes) (size chunkSize : Nat)
    (ret : Bytes) (index : Nat) : Except WofStop Bytes := do
  let off ← chunkStart compdata index
  let complen ← chunkLength compdata size chunkSize index
  let stored ← wofRead compdata (tableLength size chunkSize + off) complen
  if complen = textLength size chunkSize index then
    -- stored uncompressed
    wofWrite ret (index * chunkSize) stored
  else
    match decompress stored (textLength size chunkSize index) with
    | .error err => .error (.failed err)
    | .ok text => wofWrite ret (index * chunkSize) text

/-- The loop over the chunks, into a buffer with what was in memory before. -/
def wofDecompress
    (decompress : Decompressor) (compdata : Bytes) (size chunkSize : Nat)
    (memory : Bytes) : Except WofStop Bytes :=
  (List.range (numChunks size chunkSize)).foldlM
    (wofChunk decompress compdata size chunkSize) memory

/-- `do_xpress_decompress`. -/
def doXpressDecompress
    (xpressDecompress : Decompressor) (compdata : Bytes) (size chunkSize : Nat)
    (memory : Bytes) : Except WofStop Bytes :=
  wofDecompress xpressDecompress compdata size chunkSize memory

/-- `LZX_CHUNK_SIZE`. -/
def lzxChunkSize : Nat := 32768

/-- `do_lzx_decompress`. -/
def doLzxDecompress
    (lzxDecompress : Decompressor) (compdata : Bytes) (size : Nat)
    (memory : Bytes) : Except WofStop Bytes :=
  wofDecompress lzxDecompress compdata size lzxChunkSize memory

/-! ## Valid streams -/

/-- A chunk is stored compressed to fewer bytes, or as it is. -/
def StoredAs (compresses : Bytes → Bytes → Prop) (chunk stored : Bytes) : Prop :=
  stored = chunk ∨ compresses chunk stored ∧ stored.length < chunk.length

/-- The decompressor gives back every chunk that was compressed. -/
def Inverts (decompress : Decompressor) (compresses : Bytes → Bytes → Prop) : Prop :=
  ∀ chunk stored, compresses chunk stored → decompress stored chunk.length = .ok chunk

/-- Where a chunk starts among the stored ones. -/
def storedBefore (chunks : List Bytes) (index : Nat) : Nat :=
  (chunks.take index).flatten.length

/-- The table of the starts of all chunks but the first. -/
def wofTable (chunks : List Bytes) : Bytes :=
  (List.range (chunks.length - 1)).flatMap fun index =>
    le 4 (storedBefore chunks (index + 1))

/-- A text of at least one byte, and its stored chunks. -/
structure WofStream
    (compresses : Bytes → Bytes → Prop) (chunkSize : Nat)
    (text : Bytes) (chunks : List Bytes) : Prop where
  nonempty : 1 ≤ text.length
  small : text.length < 2 ^ 32
  count : chunks.length = (text.length + chunkSize - 1) / chunkSize
  stored : ∀ index chunk, chunks[index]? = some chunk →
    StoredAs compresses (slice text (index * chunkSize) chunkSize) chunk

/-- The bytes of a stream. -/
def wofEncode (chunks : List Bytes) : Bytes :=
  wofTable chunks ++ chunks.flatten

section Stream

variable {compresses : Bytes → Bytes → Prop} {chunkSize : Nat} {text : Bytes}
variable {chunks : List Bytes}

theorem length_wofTable (chunks : List Bytes) :
    (wofTable chunks).length = 4 * (chunks.length - 1) := by
  simp [wofTable, List.length_flatMap, length_le, Nat.mul_comm]

theorem length_wofEncode (chunks : List Bytes) :
    (wofEncode chunks).length = 4 * (chunks.length - 1) + chunks.flatten.length := by
  rw [wofEncode, List.length_append, length_wofTable]

/-- An entry of the table is found in the stream. -/
theorem wofOffset_encode
    {index : Nat} (inside : index + 1 < chunks.length)
    (small : chunks.flatten.length < 2 ^ 32) :
    wofOffset (wofEncode chunks) index = .ok (storedBefore chunks (index + 1)) := by
  have bound : index < chunks.length - 1 := by omega
  have found :
      ((List.range (chunks.length - 1)).map fun index =>
        le 4 (storedBefore chunks (index + 1)))[index]? =
          some (le 4 (storedBefore chunks (index + 1))) := by
    rw [List.getElem?_map, List.getElem?_range bound, Option.map_some]
  have entry := slice_flatten found chunks.flatten
  have before :
      (((List.range (chunks.length - 1)).map fun index =>
        le 4 (storedBefore chunks (index + 1))).take index).flatten.length = 4 * index := by
    rw [← List.map_take, List.take_range, Nat.min_eq_left (Nat.le_of_lt bound),
      ← List.flatMap_def]
    simp [List.length_flatMap, length_le, Nat.mul_comm]
  have fits : storedBefore chunks (index + 1) < 256 ^ 4 :=
    (length_flatten_take_le chunks (index + 1)).trans_lt small
  rw [before, ← List.flatMap_def, length_le] at entry
  rw [wofOffset, wofRead, if_pos (by rw [length_wofEncode]; omega)]
  change Except.ok (unle (slice (wofTable chunks ++ chunks.flatten) (4 * index) 4)) = _
  rw [wofTable, entry, unle_le_of_lt fits]

/-- A stored chunk is found behind the table. -/
theorem wofRead_encode
    {index : Nat} {chunk : Bytes} (found : chunks[index]? = some chunk) :
    wofRead (wofEncode chunks)
      (4 * (chunks.length - 1) + storedBefore chunks index) chunk.length = .ok chunk := by
  have part := slice_flatten found []
  have stop := length_flatten_take_succ found
  have within := length_flatten_take_le chunks (index + 1)
  rw [List.append_nil] at part
  rw [wofRead, if_pos (by rw [length_wofEncode, storedBefore]; omega), wofEncode,
    slice_behind (length_wofTable chunks) (Nat.le_add_right _ _), Nat.add_sub_cancel_left,
    storedBefore, part]

/-- All chunks but the last are full, and the last one is not empty. -/
theorem WofStream.bounds
    (stream : WofStream compresses chunkSize text chunks) (positive : 0 < chunkSize) :
    1 ≤ chunks.length ∧ (chunks.length - 1) * chunkSize < text.length ∧
      text.length ≤ chunks.length * chunkSize := by
  have nonempty := stream.nonempty
  have lower := Nat.div_mul_le_self (text.length + chunkSize - 1) chunkSize
  have upper := @Nat.lt_div_mul_add (text.length + chunkSize - 1) _ positive
  rw [← stream.count] at lower upper
  have one : 1 ≤ chunks.length := by
    by_contra none
    have zero : chunks.length = 0 := by omega
    rw [zero, Nat.zero_mul] at upper
    omega
  rw [Nat.sub_mul, Nat.one_mul]
  have full : chunkSize ≤ chunks.length * chunkSize := Nat.le_mul_of_pos_left chunkSize one
  omega

theorem WofStream.length_chunk_le
    (stream : WofStream compresses chunkSize text chunks)
    {index : Nat} {chunk : Bytes} (found : chunks[index]? = some chunk) :
    chunk.length ≤ (slice text (index * chunkSize) chunkSize).length := by
  rcases stream.stored index chunk found with rfl | ⟨-, shorter⟩
  · exact le_rfl
  · exact Nat.le_of_lt shorter

/-- The stored chunks are no longer than the text. -/
theorem WofStream.length_flatten_le
    (stream : WofStream compresses chunkSize text chunks) :
    chunks.flatten.length ≤ text.length := by
  have before : ∀ index, storedBefore chunks index ≤ text.length ∧
      storedBefore chunks index ≤ index * chunkSize := by
    intro index
    induction index with
    | zero => exact ⟨Nat.zero_le _, Nat.zero_le _⟩
    | succ index ih =>
      cases found : chunks[index]? with
      | none =>
        have same : chunks.take (index + 1) = chunks.take index := by
          rw [List.take_add_one, found, Option.toList_none, List.append_nil]
        rw [storedBefore, same]
        exact ⟨ih.1, ih.2.trans (Nat.mul_le_mul_right _ (Nat.le_succ _))⟩
      | some chunk =>
        have step := length_flatten_take_succ found
        have room := stream.length_chunk_le found
        rw [slice, List.length_take, List.length_drop] at room
        rw [storedBefore] at ih ⊢
        rw [Nat.succ_mul]
        omega
  have whole := (before chunks.length).1
  rwa [storedBefore, List.take_length] at whole

end Stream

/-! ## Reading a stream -/

section Reading

variable {compresses : Bytes → Bytes → Prop} {decompress : Decompressor}
variable {chunkSize : Nat} {text : Bytes} {chunks : List Bytes}
variable (stream : WofStream compresses chunkSize text chunks)
variable (positive : 0 < chunkSize) (rounds : text.length + chunkSize - 1 < 2 ^ 32)

include stream rounds in
theorem numChunks_eq : numChunks text.length chunkSize = chunks.length := by
  rw [numChunks, Nat.mod_eq_of_lt rounds, stream.count]

include stream positive rounds in
theorem tableLength_eq :
    tableLength text.length chunkSize = 4 * (chunks.length - 1) := by
  obtain ⟨one, start, -⟩ := stream.bounds positive
  have small := stream.small
  have few : chunks.length - 1 ≤ (chunks.length - 1) * chunkSize :=
    Nat.le_mul_of_pos_right _ positive
  rw [tableLength, numChunks_eq stream rounds, wordSub, wordModulus]
  omega

include stream positive rounds in
theorem wofDataLength_eq :
    wofDataLength (wofEncode chunks) text.length chunkSize = chunks.flatten.length := by
  obtain ⟨one, start, -⟩ := stream.bounds positive
  have small := stream.small
  have short := stream.length_flatten_le
  have few : chunks.length - 1 ≤ (chunks.length - 1) * chunkSize :=
    Nat.le_mul_of_pos_right _ positive
  rw [wofDataLength, tableLength_eq stream positive rounds, length_wofEncode, wordSub,
    wordModulus]
  omega

include stream in
theorem chunkStart_eq {index : Nat} (inside : index < chunks.length) :
    chunkStart (wofEncode chunks) index = .ok (storedBefore chunks index) := by
  have small := stream.length_flatten_le.trans_lt stream.small
  rw [chunkStart]
  split_ifs with first
  · rw [first]
    rfl
  · rw [wofOffset_encode (by omega) small, Nat.sub_add_cancel (Nat.pos_of_ne_zero first)]

theorem halfSub_of_le {left right : Nat} (ordered : right ≤ left) (small : left < 2 ^ 32) :
    halfSub left right = left - right := by
  rw [halfSub]
  omega

include stream positive rounds in
/-- The length of a stored chunk, in each of the three cases of the source. -/
theorem chunkLength_eq
    {index : Nat} {chunk : Bytes} (found : chunks[index]? = some chunk) :
    chunkLength (wofEncode chunks) text.length chunkSize index = .ok chunk.length := by
  have inside : index < chunks.length := (List.getElem?_eq_some_iff.mp found).1
  have small := stream.length_flatten_le.trans_lt stream.small
  have step : storedBefore chunks (index + 1) = storedBefore chunks index + chunk.length :=
    length_flatten_take_succ found
  have within : storedBefore chunks (index + 1) ≤ chunks.flatten.length :=
    length_flatten_take_le chunks (index + 1)
  have whole : storedBefore chunks chunks.length = chunks.flatten.length := by
    rw [storedBefore, List.take_length]
  have difference : halfSub (storedBefore chunks (index + 1)) (storedBefore chunks index) =
      chunk.length := by
    rw [halfSub_of_le (by omega) (within.trans_lt small), step, Nat.add_sub_cancel_left]
  rw [chunkLength, numChunks_eq stream rounds, wofDataLength_eq stream positive rounds]
  split_ifs with first several last
  · subst first
    rw [wofOffset_encode (by omega) small, step]
    exact congrArg Except.ok (Nat.zero_add _)
  · have single : chunks.length = index + 1 := by omega
    subst first
    rw [← whole, single, step]
    exact congrArg Except.ok (Nat.zero_add _)
  · have single : chunks.length = index + 1 := by omega
    rw [wofOffset_encode (by omega) small, Nat.sub_add_cancel (Nat.pos_of_ne_zero first)]
    change Except.ok (halfSub chunks.flatten.length _) = _
    rw [← whole, single, difference]
  · rw [wofOffset_encode (by omega) small, wofOffset_encode (by omega) small,
      Nat.sub_add_cancel (Nat.pos_of_ne_zero first)]
    change Except.ok (halfSub _ _) = _
    rw [difference]

include stream positive rounds in
theorem textLength_eq {index : Nat} (inside : index < chunks.length) :
    textLength text.length chunkSize index =
      (slice text (index * chunkSize) chunkSize).length := by
  obtain ⟨one, start, stop⟩ := stream.bounds positive
  have small := stream.small
  rw [textLength, numChunks_eq stream rounds, slice, List.length_take, List.length_drop]
  split_ifs with last
  · subst last
    have room : text.length ≤ (chunks.length - 1) * chunkSize + chunkSize := by
      rw [← Nat.succ_mul, Nat.succ_eq_add_one, Nat.sub_add_cancel one]
      exact stop
    rw [wordSub, wordModulus]
    omega
  · have next : (index + 1) * chunkSize ≤ (chunks.length - 1) * chunkSize :=
      Nat.mul_le_mul_right _ (by omega)
    rw [Nat.succ_mul] at next
    omega

/-- The buffer when the text up to a position has been written. -/
def writtenUpTo (text memory : Bytes) (position : Nat) : Bytes :=
  text.take position ++ memory.drop position

/-- Writing the next chunk. -/
theorem wofWrite_next
    {memory : Bytes} (size : memory.length = text.length) (position : Nat)
    (inside : position ≤ text.length) :
    wofWrite (writtenUpTo text memory position) position (slice text position chunkSize) =
      .ok (writtenUpTo text memory (position + chunkSize)) := by
  have front : (text.take position).length = position := by
    rw [List.length_take, Nat.min_eq_left inside]
  have room : (slice text position chunkSize).length =
      min chunkSize (text.length - position) := by
    rw [slice, List.length_take, List.length_drop]
  have joined : text.take (position + chunkSize) =
      text.take position ++ slice text position chunkSize := List.take_add
  have behind : memory.drop (position + (slice text position chunkSize).length) =
      memory.drop (position + chunkSize) := by
    rw [room]
    rcases Nat.le_total chunkSize (text.length - position) with full | short
    · rw [Nat.min_eq_left full]
    · rw [Nat.min_eq_right short, List.drop_eq_nil_of_le (by omega),
        List.drop_eq_nil_of_le (by omega)]
  have length : (writtenUpTo text memory position).length = text.length := by
    rw [writtenUpTo, List.length_append, front, List.length_drop, size]
    omega
  rw [wofWrite, if_pos (by rw [length, room]; omega), patch, writtenUpTo, writtenUpTo,
    List.take_left' front, joined, ← List.drop_drop, List.drop_left' front,
    List.drop_drop, behind]

include stream positive rounds in
/-- A round of the loop writes the text of its chunk. -/
theorem wofChunk_next
    (inverts : Inverts decompress compresses)
    {memory : Bytes} (size : memory.length = text.length)
    {index : Nat} (inside : index < chunks.length) :
    wofChunk decompress (wofEncode chunks) text.length chunkSize
        (writtenUpTo text memory (index * chunkSize)) index =
      .ok (writtenUpTo text memory ((index + 1) * chunkSize)) := by
  obtain ⟨one, start, -⟩ := stream.bounds positive
  have found : chunks[index]? = some chunks[index] := List.getElem?_eq_getElem inside
  generalize chunks[index] = chunk at found
  have before : index * chunkSize ≤ text.length :=
    (Nat.mul_le_mul_right chunkSize (Nat.le_sub_one_of_lt inside)).trans (Nat.le_of_lt start)
  have write := @wofWrite_next chunkSize text memory size _ before
  rw [wofChunk, chunkStart_eq stream inside, chunkLength_eq stream positive rounds found,
    tableLength_eq stream positive rounds, textLength_eq stream positive rounds inside]
  change (wofRead (wofEncode chunks)
    (4 * (chunks.length - 1) + storedBefore chunks index) chunk.length >>= _) = _
  rw [wofRead_encode found, Nat.succ_mul, ← write]
  change (if chunk.length = _ then _ else _) = _
  rcases stream.stored index chunk found with raw | ⟨compressed, shorter⟩
  · rw [if_pos (congrArg List.length raw), raw]
  · rw [if_neg (Nat.ne_of_lt shorter), inverts _ _ compressed]

include stream positive rounds in
/-- A stream whose rounded length fits in 32 bits is decompressed. -/
theorem wofDecompress_eq
    (inverts : Inverts decompress compresses)
    {memory : Bytes} (size : memory.length = text.length) :
    wofDecompress decompress (wofEncode chunks) text.length chunkSize memory = .ok text := by
  obtain ⟨-, -, stop⟩ := stream.bounds positive
  have run : ∀ count ≤ chunks.length,
      (List.range count).foldlM
          (wofChunk decompress (wofEncode chunks) text.length chunkSize) memory =
        .ok (writtenUpTo text memory (count * chunkSize)) := by
    intro count few
    induction count with
    | zero =>
      rw [Nat.zero_mul, writtenUpTo]
      rfl
    | succ count ih =>
      rw [List.range_succ, List.foldlM_append, ih (by omega)]
      change (wofChunk decompress _ _ _ _ count >>= pure) = _
      rw [bind_pure, wofChunk_next stream positive rounds inverts size (by omega)]
  rw [wofDecompress, numChunks_eq stream rounds, run chunks.length le_rfl, writtenUpTo,
    List.take_of_length_le stop, List.drop_eq_nil_of_le (size.trans_le stop),
    List.append_nil]

end Reading

/-- Where the rounded length overflows there are no chunks, and nothing is written. -/
theorem wofDecompress_overflow
    (decompress : Decompressor) (compdata memory : Bytes) {size chunkSize : Nat}
    (small : size < 2 ^ 32) (chunkSmall : chunkSize < 2 ^ 32)
    (overflow : 2 ^ 32 ≤ size + chunkSize - 1) :
    wofDecompress decompress compdata size chunkSize memory = .ok memory := by
  have wrapped : (size + chunkSize - 1) % 2 ^ 32 = size + chunkSize - 1 - 2 ^ 32 := by
    omega
  rw [wofDecompress, numChunks, wrapped, Nat.div_eq_of_lt (by omega)]
  rfl

/-- The text is returned whatever was in memory exactly when the rounding does not overflow. -/
theorem wofDecompress_eq_iff
    {compresses : Bytes → Bytes → Prop} {decompress : Decompressor}
    (inverts : Inverts decompress compresses)
    {chunkSize : Nat} {text : Bytes} {chunks : List Bytes}
    (stream : WofStream compresses chunkSize text chunks)
    (positive : 0 < chunkSize) (chunkSmall : chunkSize < 2 ^ 32) :
    (∀ memory : Bytes, memory.length = text.length →
      wofDecompress decompress (wofEncode chunks) text.length chunkSize memory = .ok text) ↔
      text.length ≤ 2 ^ 32 - chunkSize := by
  have small := stream.small
  constructor
  · intro right
    by_contra long
    have kept (byte : UInt8) : List.replicate text.length byte = text := by
      have ran := right (List.replicate text.length byte) List.length_replicate
      rw [wofDecompress_overflow _ _ _ small chunkSmall (by omega)] at ran
      exact Except.ok.inj ran
    have equal := (kept 0).trans (kept 1).symm
    have nonempty := stream.nonempty
    have member : (0 : UInt8) ∈ List.replicate text.length 1 := by
      rw [← equal]
      exact List.mem_replicate.mpr ⟨by omega, rfl⟩
    exact absurd (List.eq_of_mem_replicate member) (by decide)
  · intro fits memory size
    exact wofDecompress_eq stream positive (by omega) inverts size

/--
For every chunk size, the text of a valid stream is returned exactly when it is
not longer than `2 ^ 32` less a chunk.
-/
theorem doDecompress_eq_iff
    {compresses : Bytes → Bytes → Prop} {decompress : Decompressor}
    (inverts : Inverts decompress compresses)
    {chunkSize : Nat} {text : Bytes} {chunks : List Bytes}
    (stream : WofStream compresses chunkSize text chunks) :
    (chunkSize ∈ [4096, 8192, 16384] →
      ((∀ memory : Bytes, memory.length = text.length →
        doXpressDecompress decompress (wofEncode chunks) text.length chunkSize memory =
          .ok text) ↔ text.length ≤ 2 ^ 32 - chunkSize)) ∧
    (chunkSize = lzxChunkSize →
      ((∀ memory : Bytes, memory.length = text.length →
        doLzxDecompress decompress (wofEncode chunks) text.length memory = .ok text) ↔
          text.length ≤ 2 ^ 32 - lzxChunkSize)) := by
  constructor
  · intro known
    have bounds : 0 < chunkSize ∧ chunkSize < 2 ^ 32 := by
      simp only [List.mem_cons, List.not_mem_nil, or_false] at known
      rcases known with rfl | rfl | rfl <;> decide
    exact wofDecompress_eq_iff inverts stream bounds.1 bounds.2
  · rintro rfl
    exact wofDecompress_eq_iff inverts stream (by decide) (by decide)

/-- Three letters, a hundred times. -/
def abcText : Bytes :=
  (List.replicate 100 [0x61, 0x62, 0x63]).flatten

/-- The letters compressed: the lengths of the codes, three literals and a match. -/
def abcStored : Bytes :=
  List.replicate 48 0 ++ [0x30, 0x23] ++ List.replicate 78 0 ++ [0x02] ++
    List.replicate 14 0 ++ [0x20] ++ List.replicate 112 0 ++
    [0xa8, 0xdc, 0, 0, 0xff, 0x26, 0x01]

/-- A decompressor, as far as it concerns these letters. -/
def abcDecompress (stored : Bytes) (length : Nat) : Except Nat Bytes :=
  if stored = abcStored ∧ length = 300 then .ok abcText else .error 1

theorem doDecompress_eq_iff_abc :
    doXpressDecompress abcDecompress (wofEncode [abcStored]) 300 4096
      (List.replicate 300 0) = .ok abcText := by
  have inverts : Inverts abcDecompress fun chunk stored =>
      chunk = abcText ∧ stored = abcStored := by
    rintro chunk stored ⟨rfl, rfl⟩
    exact if_pos ⟨rfl, by decide +kernel⟩
  have stream : WofStream (fun chunk stored => chunk = abcText ∧ stored = abcStored) 4096
      abcText [abcStored] := by
    refine ⟨by decide +kernel, by decide +kernel, by decide +kernel, ?_⟩
    intro index chunk found
    cases index with
    | zero =>
      obtain rfl := Option.some.inj found
      exact Or.inr ⟨⟨by decide +kernel, rfl⟩, by decide +kernel⟩
    | succ index => cases found
  have length : abcText.length = 300 := by decide +kernel
  have right := ((doDecompress_eq_iff inverts stream).1 (by decide)).mpr
    (by rw [length]; decide)
  rw [length] at right
  exact right _ List.length_replicate

/-- A stream whose chunks are stored as they are. -/
def rawChunks (chunkSize : Nat) (text : Bytes) : List Bytes :=
  (List.range ((text.length + chunkSize - 1) / chunkSize)).map fun index =>
    slice text (index * chunkSize) chunkSize

theorem wofStream_raw
    (compresses : Bytes → Bytes → Prop) (chunkSize : Nat) {text : Bytes}
    (nonempty : 1 ≤ text.length) (small : text.length < 2 ^ 32) :
    WofStream compresses chunkSize text (rawChunks chunkSize text) := by
  refine ⟨nonempty, small, ?_, fun index chunk found => Or.inl ?_⟩
  · rw [rawChunks, List.length_map, List.length_range]
  · rw [rawChunks, List.getElem?_map, Option.map_eq_some_iff] at found
    obtain ⟨position, listed, rfl⟩ := found
    obtain ⟨inside, value⟩ := List.getElem?_eq_some_iff.mp listed
    rw [List.getElem_range] at value
    rw [value]

/-- A text of the greatest length, all of whose bytes are alike. -/
def longText : Bytes := List.replicate 4294967295 0x61

/-- Of the text of the greatest length nothing is written. -/
theorem doXpressDecompress_loses :
    WofStream (fun _ _ => False) 4096 longText (rawChunks 4096 longText) ∧
      doXpressDecompress (fun _ _ => .error 1) (wofEncode (rawChunks 4096 longText))
          longText.length 4096 (List.replicate longText.length 0) =
        .ok (List.replicate longText.length 0) ∧
      List.replicate longText.length 0 ≠ longText := by
  have length : longText.length = 4294967295 := List.length_replicate
  refine ⟨wofStream_raw _ 4096 (by rw [length]; decide) (by rw [length]; decide), ?_, ?_⟩
  · exact wofDecompress_overflow _ _ _ (by rw [length]; decide) (by decide)
      (by rw [length]; decide)
  · intro equal
    have member : (0x61 : UInt8) ∈ List.replicate longText.length 0 := by
      rw [equal]
      exact List.mem_replicate.mpr ⟨by decide, rfl⟩
    exact absurd (List.eq_of_mem_replicate member) (by decide)

end Ntfs2Btrfs
