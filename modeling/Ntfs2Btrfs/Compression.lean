import Ntfs2Btrfs.Rewriting

/-!
# Compressing the data of a file

`zlib_compress` and `zstd_compress` compress a piece of data, and give it up where
that saves less than a cluster.  What is kept is rounded up to clusters by masking
bits.  The length a stream may have is a difference of 64 bits: for a piece that is
shorter than a cluster it is not small but huge, and nothing is given up.

The libraries are parameters, with what their documentation says of them.
-/

namespace Ntfs2Btrfs

open ByteStore

/-! ## Rounding -/

/-- `vector::resize`, with zeros for new bytes. -/
def resize (bytes : Bytes) (size : Nat) : Bytes :=
  bytes.take size ++ List.replicate (size - bytes.length) 0

theorem length_resize (bytes : Bytes) (size : Nat) : (resize bytes size).length = size := by
  rw [resize, List.length_append, List.length_take, List.length_replicate]
  omega

/-- The beginning of a buffer stays when it keeps its room. -/
theorem isPrefix_resize
    {front back : Bytes} {size : Nat} (room : front.length ≤ size) :
    front <+: resize (front ++ back) size := by
  rw [resize, List.take_append, List.take_of_length_le room, List.append_assoc]
  exact List.prefix_append _ _

/-- What lies inside a buffer before and after it is resized stays. -/
theorem slice_resize
    {bytes : Bytes} {size offset length : Nat} (inside : offset + length ≤ size)
    (within : offset + length ≤ bytes.length) :
    slice (resize bytes size) offset length = slice bytes offset length := by
  have front : offset + length ≤ (bytes.take size).length := by
    rw [List.length_take]
    exact Nat.le_min.mpr ⟨inside, within⟩
  rw [resize, slice, List.drop_append_of_le_length (by omega),
    List.take_append_of_le_length (by rw [List.length_drop]; omega), slice,
    List.drop_take, List.take_take, Nat.min_eq_left (by omega)]

/-- `value & ~(cluster_size - 1)`, where the complement has a number of bits. -/
def clearBits (bits value clusterSize : Nat) : Nat :=
  value &&& (2 ^ bits - clusterSize)

theorem clearBits_eq
    {bits exponent value : Nat} (fits : exponent ≤ bits) (small : value < 2 ^ bits) :
    clearBits bits value (2 ^ exponent) = value / 2 ^ exponent * 2 ^ exponent := by
  have mask : 2 ^ bits - 2 ^ exponent = (2 ^ (bits - exponent) - 1) <<< exponent := by
    rw [Nat.shiftLeft_eq, Nat.sub_mul, Nat.one_mul, ← Nat.pow_add, Nat.sub_add_cancel fits]
  have top : value >>> exponent < 2 ^ (bits - exponent) := by
    rw [Nat.shiftRight_eq_div_pow]
    refine Nat.div_lt_of_lt_mul ?_
    rwa [← Nat.pow_add, Nat.add_sub_cancel' fits]
  have masked : value &&& (2 ^ bits - 2 ^ exponent) =
      ((value >>> exponent) &&& (2 ^ (bits - exponent) - 1)) <<< exponent := by
    rw [mask]
    refine Nat.eq_of_testBit_eq fun index => ?_
    simp only [Nat.testBit_and, Nat.testBit_shiftLeft, Nat.testBit_shiftRight]
    by_cases above : exponent ≤ index
    · rw [Nat.add_sub_cancel' above]
      simp [above]
    · simp [above]
  rw [clearBits, masked, Nat.and_two_pow_sub_one_eq_mod, Nat.mod_eq_of_lt top,
    Nat.shiftLeft_eq, Nat.shiftRight_eq_div_pow]

/-- The masks round up to clusters. -/
theorem clearBits_roundUp
    {bits value : Nat} (cluster : ClusterSize) (wide : 32 ≤ bits)
    (small : value + cluster.bytes ≤ 2 ^ bits) :
    clearBits bits (value + cluster.bytes - 1) cluster.bytes =
      sectorAlign value cluster.bytes := by
  have positive := cluster.bytes_pos
  exact clearBits_eq (cluster.upper.trans (by omega)) (by omega)

/-! ## `zlib_compress` -/

/-- `Z_OK`. -/
def zOk : Int := 0

/-- `Z_STREAM_END`. -/
def zStreamEnd : Int := 1

/-- The counts of a `z_stream`, and what has been written to its output. -/
structure ZStream where
  availIn : Nat
  availOut : Nat
  out : Bytes

/-- `deflate` with `Z_FINISH`: it is content without an end only when it has no more room. -/
structure Deflate where
  call : ZStream → Int × ZStream
  full : ∀ stream, (call stream).1 = zOk → (call stream).2.availOut = 0

/-- The loop of calls. -/
def zlibLoop (deflate : Deflate) (stream : ZStream) : Except RewriteError ZStream :=
  if _ : (deflate.call stream).1 ≠ zOk ∧ (deflate.call stream).1 ≠ zStreamEnd then
    .error (.codec "deflate" (deflate.call stream).1)
  else if _ : (deflate.call stream).2.availIn = 0 ∨
      (deflate.call stream).2.availOut = 0 then
    .ok (deflate.call stream).2
  else if _ : (deflate.call stream).1 = zStreamEnd then .ok (deflate.call stream).2
  else zlibLoop deflate (deflate.call stream).2
termination_by stream.availOut
decreasing_by
  rename_i failed stopped ended
  exact absurd (Or.inr (deflate.full stream (by
    by_contra other
    exact failed ⟨other, ended⟩))) stopped

/-- `zlib_compress`, with what was in the memory of its buffer. -/
def zlibCompress
    (deflateInit : Int) (deflate : Deflate) (memory data : Bytes) (clusterSize : Nat) :
    Except RewriteError (Option Bytes) :=
  if deflateInit ≠ zOk then .error (.codec "deflateInit" deflateInit)
  else
    (zlibLoop deflate ⟨data.length, data.length, []⟩).map fun stream =>
      -- compressed version would be longer than uncompressed
      if stream.availIn > 0 then none
      -- space saving less than one sector
      else if stream.out.length > wordSub data.length clusterSize then none
      else
        -- round to sector, and zero end
        some (resize (stream.out ++ memory.drop stream.out.length)
          (clearBits 32 (stream.out.length + clusterSize - 1) clusterSize))

/--
The compressed data: `deflate` writes it as far as there is room, and all of it when
it says that it is at the end.  It does not fail.
-/
structure DeflatesTo (deflate : Deflate) (data stream : Bytes) : Prop where
  status : ∀ stream, (deflate.call stream).1 = zOk ∨ (deflate.call stream).1 = zStreamEnd
  written : ∀ room,
    (deflate.call ⟨data.length, room, []⟩).2.out.length +
        (deflate.call ⟨data.length, room, []⟩).2.availOut = room
  ended : ∀ room, (deflate.call ⟨data.length, room, []⟩).1 = zStreamEnd →
    (deflate.call ⟨data.length, room, []⟩).2.out = stream

/-! ## `zstd_compress` -/

/-- `zstd_compress`; the library gives the compressed data or an error. -/
def zstdCompress
    (zstd : Bytes → Except Int Bytes) (data : Bytes) (clusterSize : Nat) :
    Except RewriteError (Option Bytes) :=
  match zstd data with
  | .error err => .error (.codec "ZSTD_compress" err)
  | .ok out =>
      if out.length > wordSub data.length clusterSize then .ok none
      else
        .ok (some (resize out (clearBits 64 (out.length + clusterSize - 1) clusterSize)))

/-! ## What a compressed extent should be -/

/-- A piece which `add_inode` hands to a compression: the whole data is longer than a cluster. -/
structure IsPiece (cluster : ClusterSize) (data : Bytes) : Prop where
  sectors : sectorSize ∣ data.length
  cut : ∃ whole, cluster.bytes < whole ∧ data.length = min maxCompExtentSize whole

/-- A buffer fills clusters and is shorter than the piece, and it begins with the stream. -/
def Saves (cluster : ClusterSize) (data stream : Bytes) (buffer : Bytes) : Prop :=
  cluster.bytes ∣ buffer.length ∧ buffer.length < data.length ∧ stream <+: buffer

/-- Nothing is returned, or a buffer that is as it should be. -/
def NoneOr (good : Bytes → Prop) (result : Except RewriteError (Option Bytes)) : Prop :=
  result = .ok none ∨ ∃ buffer, result = .ok (some buffer) ∧ good buffer

theorem noneOr_some {good : Bytes → Prop} {buffer : Bytes} :
    NoneOr good (.ok (some buffer)) ↔ good buffer := by
  constructor
  · intro either
    rcases either with none | ⟨other, same, fits⟩
    · cases none
    · rwa [Option.some.inj (Except.ok.inj same)]
  · exact fun fits => Or.inr ⟨buffer, rfl, fits⟩

theorem IsPiece.length_le {cluster : ClusterSize} {data : Bytes} (piece : IsPiece cluster data) :
    data.length ≤ maxCompExtentSize := by
  obtain ⟨whole, -, length⟩ := piece.cut
  rw [length]
  exact Nat.min_le_left _ _

/-- The piece holds a cluster unless clusters are larger than every piece. -/
theorem IsPiece.le_length
    {cluster : ClusterSize} {data : Bytes} (piece : IsPiece cluster data)
    (small : cluster.bytes ≤ maxCompExtentSize) :
    cluster.bytes ≤ data.length := by
  obtain ⟨whole, long, length⟩ := piece.cut
  rw [length]
  exact Nat.le_min.mpr ⟨small, Nat.le_of_lt long⟩

theorem IsPiece.length_eq
    {cluster : ClusterSize} {data : Bytes} (piece : IsPiece cluster data)
    (large : maxCompExtentSize < cluster.bytes) :
    data.length = maxCompExtentSize := by
  obtain ⟨whole, long, length⟩ := piece.cut
  rw [length]
  exact Nat.min_eq_left (Nat.le_of_lt (large.trans long))

/-- A difference below zero is huge. -/
theorem le_wordSub_of_lt
    {left right : Nat} (below : left < right) (small : right ≤ reservedArea) :
    2 ^ 32 ≤ wordSub left right := by
  rw [reservedArea] at small
  rw [wordSub, wordModulus]
  omega

/-- A length that saves a cluster still does when it is rounded up. -/
theorem sectorAlign_lt
    {value length unit : Nat} (positive : 0 < unit) (room : unit ≤ length)
    (saves : value ≤ length - unit) :
    sectorAlign value unit < length := by
  have split := Nat.div_add_mod' (value + unit - 1) unit
  rw [sectorAlign]
  omega

section Rounded

variable {cluster : ClusterSize} {data stream back : Bytes} {bits : Nat}
variable (piece : IsPiece cluster data) (wide : 32 ≤ bits)

include piece wide in
/-- The end of a compression, where a piece holds a cluster. -/
theorem saves_resize
    (small : cluster.bytes ≤ maxCompExtentSize)
    (saves : ¬ stream.length > wordSub data.length cluster.bytes) :
    Saves cluster data stream
      (resize (stream ++ back)
        (clearBits bits (stream.length + cluster.bytes - 1) cluster.bytes)) := by
  have positive := cluster.bytes_pos
  have room := piece.le_length small
  have limit := piece.length_le
  rw [maxCompExtentSize] at limit
  rw [wordSub_of_le room (by rw [wordModulus]; omega)] at saves
  have wideEnough : 2 ^ 32 ≤ 2 ^ bits := Nat.pow_le_pow_right (by decide) wide
  rw [clearBits_roundUp cluster wide (by omega)]
  refine ⟨?_, ?_, isPrefix_resize (le_sectorAlign positive _)⟩
  · rw [length_resize]
    exact dvd_sectorAlign _ _
  · rw [length_resize]
    exact sectorAlign_lt positive room (Nat.le_of_not_lt saves)

include piece wide in
/-- The end of a compression, where clusters are larger than every piece. -/
theorem not_saves_resize
    (large : maxCompExtentSize < cluster.bytes) (positive : 0 < stream.length)
    (short : stream.length ≤ maxCompExtentSize) :
    ¬ stream.length > wordSub data.length cluster.bytes ∧
      ¬ Saves cluster data stream
        (resize (stream ++ back)
          (clearBits bits (stream.length + cluster.bytes - 1) cluster.bytes)) := by
  have length := piece.length_eq large
  have upper := cluster.bytes_le
  have huge := le_wordSub_of_lt (length.trans_lt large) upper
  have wideEnough : 2 ^ 32 ≤ 2 ^ bits := Nat.pow_le_pow_right (by decide) wide
  rw [maxCompExtentSize] at short
  rw [reservedArea] at upper
  refine ⟨by omega, fun saves => ?_⟩
  have shorter := saves.2.1
  have rounds := dvd_sectorAlign stream.length cluster.bytes
  have above := le_sectorAlign cluster.bytes_pos stream.length
  rw [length_resize, clearBits_roundUp cluster wide (by omega), length] at shorter
  have whole := Nat.le_of_dvd (by omega) rounds
  omega

end Rounded

/-! ## Both functions save a cluster where pieces hold one -/

/-- The loop ends after its first call. -/
theorem zlibLoop_eq (deflate : Deflate) (stream : ZStream) :
    zlibLoop deflate stream =
      if (deflate.call stream).1 ≠ zOk ∧ (deflate.call stream).1 ≠ zStreamEnd then
        .error (.codec "deflate" (deflate.call stream).1)
      else .ok (deflate.call stream).2 := by
  rw [zlibLoop]
  split_ifs with failed stopped ended
  · rfl
  · rfl
  · rfl
  · refine absurd (Or.inr (deflate.full stream ?_)) stopped
    by_contra other
    exact failed ⟨other, ended⟩

/-- What `zlib_compress` returns saves a cluster. -/
def ZlibSaves (cluster : ClusterSize) (data : Bytes) : Prop :=
  ∀ deflate stream memory, DeflatesTo deflate data stream →
    NoneOr (Saves cluster data stream) (zlibCompress zOk deflate memory data cluster.bytes)

/-- What `zstd_compress` returns saves a cluster. -/
def ZstdSaves (cluster : ClusterSize) (data : Bytes) : Prop :=
  ∀ zstd stream, zstd data = .ok stream →
    NoneOr (Saves cluster data stream) (zstdCompress zstd data cluster.bytes)

/-- A library that makes one byte of everything. -/
def oneByteDeflate : Deflate where
  call stream :=
    if stream.availOut = 0 then (zOk, ⟨stream.availIn, 0, []⟩)
    else (zStreamEnd, ⟨0, stream.availOut - 1, [0]⟩)
  full stream content := by
    split_ifs at content ⊢ with empty
    · rfl
    · exact absurd (show zStreamEnd = zOk from content) (by decide)

theorem deflatesTo_oneByteDeflate (data : Bytes) : DeflatesTo oneByteDeflate data [0] := by
  constructor
  · intro stream
    simp only [oneByteDeflate]
    split_ifs
    · exact Or.inl rfl
    · exact Or.inr rfl
  · intro room
    simp only [oneByteDeflate]
    split_ifs with empty
    · exact empty.symm
    · simp only [List.length_singleton]
      omega
  · intro room ended
    simp only [oneByteDeflate] at ended ⊢
    split_ifs at ended ⊢
    · exact absurd (show zOk = zStreamEnd from ended) (by decide)
    · rfl

section Functions

variable {cluster : ClusterSize} {data : Bytes} (piece : IsPiece cluster data)

include piece in
theorem zlibSaves_iff : ZlibSaves cluster data ↔ cluster.bytes ≤ maxCompExtentSize := by
  constructor
  · intro saves
    by_contra large
    have big := Nat.lt_of_not_le large
    have length := piece.length_eq big
    have nonempty : ¬ data.length = 0 := by
      rw [length]
      decide
    have call : oneByteDeflate.call ⟨data.length, data.length, []⟩ =
        (zStreamEnd, ⟨0, data.length - 1, [0]⟩) := if_neg nonempty
    obtain ⟨kept, wastes⟩ :=
      @not_saves_resize cluster data [0] [] 32 piece le_rfl big Nat.one_pos (by decide)
    have made : zlibCompress zOk oneByteDeflate [] data cluster.bytes =
        .ok (some (resize ([0] ++ [])
          (clearBits 32 (([0] : Bytes).length + cluster.bytes - 1) cluster.bytes))) := by
      rw [zlibCompress, if_neg (not_not.mpr rfl), zlibLoop_eq, call,
        if_neg (fun other => other.2 rfl)]
      refine congrArg Except.ok ?_
      dsimp only
      rw [if_neg (Nat.lt_irrefl 0), if_neg kept]
      rfl
    have either := saves oneByteDeflate [0] [] (deflatesTo_oneByteDeflate data)
    rw [made] at either
    exact wastes (noneOr_some.mp either)
  · intro small deflate stream memory deflates
    have room := piece.le_length small
    have limit := piece.length_le
    have positive := cluster.bytes_pos
    have written := deflates.written data.length
    rw [zlibCompress, if_neg (not_not.mpr rfl), zlibLoop_eq]
    split_ifs with failed
    · rcases deflates.status ⟨data.length, data.length, []⟩ with content | ended
      · exact absurd content failed.1
      · exact absurd ended failed.2
    rw [Except.map]
    split_ifs with consumed long
    · exact Or.inl rfl
    · exact Or.inl rfl
    · have fits := Nat.le_of_not_lt long
      rw [wordSub_of_le room (limit.trans_lt (by decide))] at fits
      -- there was room left, so `deflate` said that it was at the end
      have finished : (deflate.call ⟨data.length, data.length, []⟩).1 = zStreamEnd := by
        refine (deflates.status _).resolve_left fun content => ?_
        have full := deflate.full _ content
        omega
      have whole := deflates.ended _ finished
      rw [whole] at long ⊢
      exact noneOr_some.mpr (saves_resize piece le_rfl small long)

include piece in
theorem zstdSaves_iff : ZstdSaves cluster data ↔ cluster.bytes ≤ maxCompExtentSize := by
  constructor
  · intro saves
    by_contra large
    have big := Nat.lt_of_not_le large
    obtain ⟨kept, wastes⟩ :=
      @not_saves_resize cluster data [0] [] 64 piece (by decide) big Nat.one_pos (by decide)
    have made : zstdCompress (fun _ => .ok [0]) data cluster.bytes =
        .ok (some (resize ([0] ++ [])
          (clearBits 64 (([0] : Bytes).length + cluster.bytes - 1) cluster.bytes))) := by
      rw [zstdCompress]
      dsimp only
      rw [if_neg kept]
      rfl
    have either := saves (fun _ => .ok [0]) [0] rfl
    rw [made] at either
    exact wastes (noneOr_some.mp either)
  · intro small zstd stream compressed
    rw [zstdCompress, compressed]
    dsimp only
    split_ifs with long
    · exact Or.inl rfl
    · have kept := @saves_resize cluster data stream [] 64 piece (by decide) small long
      rw [List.append_nil] at kept
      exact noneOr_some.mpr kept

end Functions

end Ntfs2Btrfs
