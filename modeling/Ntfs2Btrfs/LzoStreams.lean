import Ntfs2Btrfs.LzoCompress

/-!
# What an LZO stream gives back

A stream is read by its length and the lengths of its segments.  What `lzo_compress`
returns is read as the pages of the piece, so it gives the whole piece back exactly
when the piece is made of pages.

The sizes of compressed pieces come out right as long as a piece can hold a cluster.
-/

namespace Ntfs2Btrfs

open ByteStore

section Reading

variable {cluster : ClusterSize}

/-- A page is decompressed to what was compressed. -/
def LosslessPages
    (clusterSize : Nat) (compress : PageCompressor) (decompress : Bytes → Option Bytes) :
    Prop :=
  ∀ page segment, page.length = clusterSize → compress page = .ok segment →
    decompress segment = some page

/-- The bytes the stream of a piece uses. -/
def lzoUsed (clusterSize : Nat) (compress : PageCompressor) (data : Bytes) : Nat :=
  headerAfter clusterSize 4
    ((pagesOf clusterSize data).map fun page => (compress page).toOption.getD [])

theorem lzoUsed_eq
    {clusterSize : Nat} {compress : PageCompressor} {data : Bytes} {outs : List Bytes}
    (outputs : List.Forall₂ (fun page out => compress page = .ok out)
      (pagesOf clusterSize data) outs) :
    lzoUsed clusterSize compress data = headerAfter clusterSize 4 outs := by
  rw [lzoUsed]
  refine congrArg _ ?_
  generalize pagesOf clusterSize data = pages at outputs
  induction outputs with
  | nil => rfl
  | cons compressed _ ih =>
    rw [List.map_cons, ih, compressed]
    rfl

/-- The pages are the piece up to their end. -/
theorem flatten_pagesOf (clusterSize : Nat) (data : Bytes) :
    (pagesOf clusterSize data).flatten =
      data.take (data.length / clusterSize * clusterSize) := by
  rw [pagesOf]
  generalize data.length / clusterSize = count
  induction count with
  | zero => simp
  | succ count ih =>
    rw [List.range_succ, List.map_append, List.flatten_append, ih, Nat.succ_mul,
      List.take_add]
    simp only [List.map_cons, List.map_nil, List.flatten_cons, List.flatten_nil,
      List.append_nil]
    rfl

/-- The pages are the whole piece when it is made of pages. -/
theorem flatten_pagesOf_eq_iff (cluster : ClusterSize) (data : Bytes) :
    (pagesOf cluster.bytes data).flatten = data ↔ cluster.bytes ∣ data.length := by
  rw [flatten_pagesOf, List.take_eq_self_iff]
  constructor
  · intro whole
    exact ⟨data.length / cluster.bytes, by
      rw [Nat.mul_comm]
      exact Nat.le_antisymm whole (Nat.div_mul_le_self _ _)⟩
  · intro whole
    exact (Nat.div_mul_cancel whole).ge

/-- Every header takes four bytes. -/
theorem length_lt_headerAfter (segments : List Bytes) :
    segments.length < headerAfter cluster.bytes 4 segments := by
  induction segments using List.reverseRecOn with
  | nil => exact (by decide : 0 < 4)
  | append_singleton rest segment ih =>
    have next : headerAfter cluster.bytes 4 rest + 4 + segment.length ≤
        nextHeader cluster.bytes (headerAfter cluster.bytes 4 rest) segment :=
      lt_nextHeader _ _
    rw [headerAfter_concat, List.length_append, List.length_singleton]
    omega

/-- The first header is behind the length of the stream. -/
theorem skipPadding_four (cluster : ClusterSize) : skipPadding cluster.bytes 4 = 4 := by
  have large := four_le_bytes cluster
  rw [skipPadding, Nat.mod_eq_of_lt (by omega), if_neg (by omega)]

/-- The segments of a stream are read back. -/
theorem lzoSegments_eq
    {buffer : Bytes} {outs : List Bytes}
    (short : ∀ out ∈ outs, out.length ≤ lzoMaxOutlen cluster.bytes)
    (total : unle (slice buffer 0 4) = headerAfter cluster.bytes 4 outs)
    (room : headerAfter cluster.bytes 4 outs ≤ buffer.length)
    (holds : HoldsSegments cluster.bytes buffer 4 outs) :
    lzoSegments cluster.bytes buffer = some outs := by
  have enough := @length_lt_headerAfter cluster outs
  have upper := cluster.bytes_le
  rw [reservedArea] at upper
  rw [lzoSegments, total, if_neg (Nat.not_lt_of_le room)]
  refine lzoSegmentsFrom_eq (by omega) ?_ ?_ ?_
  · rw [skipPadding_four]
  · intro out member
    have bound := short out member
    rw [lzoMaxOutlen] at bound
    exact bound.trans_lt (by omega)
  · rwa [skipPadding_four]

/-- The segments of pages are decompressed to the pages. -/
theorem mapM_decompress
    {compress : PageCompressor} {decompress : Bytes → Option Bytes}
    (lossless : LosslessPages cluster.bytes compress decompress) {pages outs : List Bytes}
    (outputs : List.Forall₂ (fun page out => compress page = .ok out) pages outs)
    (sizes : ∀ page ∈ pages, page.length = cluster.bytes) :
    outs.mapM decompress = some pages := by
  induction outputs with
  | nil => rfl
  | @cons page out pages outs compressed _ ih =>
    have first := lossless page out (sizes page List.mem_cons_self) compressed
    have rest := ih fun other member => sizes other (List.mem_cons_of_mem _ member)
    rw [List.mapM_cons, first, rest]
    rfl

/-- What a run returns gives the piece back, with the bytes it uses at its start. -/
def Restores
    (cluster : ClusterSize) (compress : PageCompressor)
    (decompress : Bytes → Option Bytes) (data buffer : Bytes) : Prop :=
  lzoDecompress decompress cluster.bytes buffer = some data ∧
    unle (slice buffer 0 4) = lzoUsed cluster.bytes compress data

section Run

variable {compress : PageCompressor} (bounded : BoundedPages cluster.bytes compress)
variable {memory data : Bytes}
variable (size : memory.length = lzoRoom cluster.bytes (data.length / cluster.bytes))

include bounded size in
/-- A stream whose length has 32 bits is read as the pages of the piece. -/
theorem lzoDecompress_eq
    {decompress : Bytes → Option Bytes}
    (lossless : LosslessPages cluster.bytes compress decompress) {buffer : Bytes}
    (made : lzoCompress compress memory data cluster.bytes = .ok (some buffer))
    (fits : lzoUsed cluster.bytes compress data < 2 ^ 32) :
    lzoDecompress decompress cluster.bytes buffer =
        some (pagesOf cluster.bytes data).flatten ∧
      unle (slice buffer 0 4) = lzoUsed cluster.bytes compress data := by
  obtain ⟨outs, outputs, short, -, length, streams⟩ :=
    (lzoCompress_spec bounded size).2 buffer made
  rw [lzoUsed_eq outputs] at fits ⊢
  obtain ⟨total, holds⟩ := streams fits
  have room : headerAfter cluster.bytes 4 outs ≤ buffer.length := by
    rw [length, Nat.mod_eq_of_lt fits]
    exact le_sectorAlign cluster.bytes_pos _
  refine ⟨?_, total⟩
  rw [lzoDecompress, lzoSegments_eq short total room holds, Option.bind_some,
    mapM_decompress lossless outputs fun page => length_of_mem_pagesOf]
  rfl

include bounded size in
/-- A run gives the piece back when it is made of pages and the length has 32 bits. -/
theorem restores_iff
    {decompress : Bytes → Option Bytes}
    (lossless : LosslessPages cluster.bytes compress decompress) {buffer : Bytes}
    (made : lzoCompress compress memory data cluster.bytes = .ok (some buffer)) :
    Restores cluster compress decompress data buffer ↔
      cluster.bytes ∣ data.length ∧ lzoUsed cluster.bytes compress data < 2 ^ 32 := by
  rw [Restores]
  by_cases fits : lzoUsed cluster.bytes compress data < 2 ^ 32
  · obtain ⟨read, total⟩ := lzoDecompress_eq bounded size lossless made fits
    rw [read, Option.some_inj, flatten_pagesOf_eq_iff]
    exact ⟨fun both => ⟨both.1, fits⟩, fun both => ⟨both.1, total⟩⟩
  · constructor
    · intro both
      have small := unle_lt (slice buffer 0 4)
      have four : (slice buffer 0 4).length ≤ 4 := List.length_take_le _ _
      have word : 256 ^ (slice buffer 0 4).length ≤ 256 ^ 4 :=
        Nat.pow_le_pow_right (by decide) four
      rw [both.2] at small
      exact absurd (small.trans_le word) fits
    · exact fun both => absurd both.2 fits

/-- The bytes used by the pages of a piece. -/
theorem headerAfter_lt
    {outs : List Bytes} (short : ∀ out ∈ outs, out.length ≤ lzoMaxOutlen cluster.bytes)
    (count : outs.length = data.length / cluster.bytes) (small : data.length < 2 ^ 31) :
    headerAfter cluster.bytes 4 outs < 2 ^ 32 := by
  have bound := @headerAfter_le cluster.bytes _ outs short
  have large := four_le_bytes cluster
  have pages : outs.length * cluster.bytes ≤ data.length := by
    rw [count]
    exact Nat.div_mul_le_self _ _
  have twice : 2 * (lzoMaxOutlen cluster.bytes + 7) ≤ 3 * cluster.bytes := by
    rw [lzoMaxOutlen]
    omega
  have whole : outs.length * (2 * (lzoMaxOutlen cluster.bytes + 7)) ≤
      outs.length * (3 * cluster.bytes) := Nat.mul_le_mul_left _ twice
  rw [Nat.mul_left_comm, Nat.mul_left_comm outs.length 3] at whole
  omega

include bounded size in
/-- The stream of a piece below 2 GiB has a length of 32 bits. -/
theorem lzoUsed_lt
    {buffer : Bytes}
    (made : lzoCompress compress memory data cluster.bytes = .ok (some buffer))
    (small : data.length < 2 ^ 31) :
    lzoUsed cluster.bytes compress data < 2 ^ 32 := by
  obtain ⟨outs, outputs, short, -⟩ := (lzoCompress_spec bounded size).2 buffer made
  rw [lzoUsed_eq outputs]
  refine headerAfter_lt short ?_ small
  rw [← outputs.length_eq, length_pagesOf]

end Run

/-! ## Which pieces are given back by every run -/

/-- No run writes past its buffer, and what it returns gives the piece back. -/
def EveryRunRestores (cluster : ClusterSize) (data : Bytes) : Prop :=
  ∀ compress decompress memory, BoundedPages cluster.bytes compress →
    LosslessPages cluster.bytes compress decompress →
    memory.length = lzoRoom cluster.bytes (data.length / cluster.bytes) →
      lzoCompress compress memory data cluster.bytes ≠ .error .overrun ∧
        ∀ buffer, lzoCompress compress memory data cluster.bytes = .ok (some buffer) →
          Restores cluster compress decompress data buffer

/-- A page of a list is compressed to its position, any other one is left as it is. -/
def indexCompress (pages : List Bytes) (page : Bytes) : Except Int Bytes :=
  if page ∈ pages then .ok (le 4 (pages.idxOf page)) else .ok page

/-- The page at a position. -/
def indexDecompress (pages : List Bytes) (segment : Bytes) : Option Bytes :=
  if segment.length = 4 then pages[unle segment]? else some segment

theorem boundedPages_indexCompress (pages : List Bytes) :
    BoundedPages cluster.bytes (indexCompress pages) := by
  intro page segment length compressed
  have large := four_le_bytes cluster
  rw [indexCompress] at compressed
  rw [lzoMaxOutlen]
  split_ifs at compressed
  · rw [← Except.ok.inj compressed, length_le]
    omega
  · rw [← Except.ok.inj compressed, length]
    omega

theorem losslessPages_indexCompress
    {pages : List Bytes} (few : pages.length < 256 ^ 4) :
    LosslessPages cluster.bytes (indexCompress pages) (indexDecompress pages) := by
  intro page segment length compressed
  have large := four_le_bytes cluster
  rw [indexCompress] at compressed
  rw [indexDecompress]
  split_ifs at compressed with member
  · have inside := List.idxOf_lt_length_of_mem member
    rw [← Except.ok.inj compressed, length_le, if_pos rfl,
      unle_le_of_lt (inside.trans few), List.getElem?_eq_getElem inside,
      List.getElem_idxOf inside]
  · rw [← Except.ok.inj compressed, if_neg (by omega)]

theorem forall₂_indexCompress {pages others : List Bytes} (inside : others ⊆ pages) :
    List.Forall₂ (fun page out => indexCompress pages page = .ok out) others
      (others.map fun page => le 4 (pages.idxOf page)) := by
  rw [List.forall₂_map_right_iff, List.forall₂_same]
  intro page member
  rw [indexCompress, if_pos (inside member)]

/-- A piece that is not made of pages has a run that returns something. -/
theorem indexCompress_returns
    {memory data : Bytes} (sectors : sectorSize ∣ data.length)
    (rest : ¬ cluster.bytes ∣ data.length) (small : data.length < 2 ^ 31)
    (size : memory.length = lzoRoom cluster.bytes (data.length / cluster.bytes)) :
    ∃ buffer, lzoCompress (indexCompress (pagesOf cluster.bytes data)) memory data
      cluster.bytes = .ok (some buffer) := by
  have large := four_le_bytes cluster
  have outputs := forall₂_indexCompress (List.Subset.refl (pagesOf cluster.bytes data))
  have fours : ∀ out ∈ (pagesOf cluster.bytes data).map
      (fun page => le 4 ((pagesOf cluster.bytes data).idxOf page)), out.length ≤ 4 := by
    intro out member
    obtain ⟨page, -, rfl⟩ := List.mem_map.mp member
    rw [length_le]
  have used := @headerAfter_le cluster.bytes 4 _ fours
  have count : ((pagesOf cluster.bytes data).map
      (fun page => le 4 ((pagesOf cluster.bytes data).idxOf page))).length =
        data.length / cluster.bytes := by
    rw [List.length_map, length_pagesOf]
  -- what remains is at least a sector
  have whole := Nat.div_add_mod data.length cluster.bytes
  have remains : 4096 ≤ data.length % cluster.bytes := by
    refine Nat.le_of_dvd (Nat.pos_of_ne_zero fun none => rest (Nat.dvd_of_mod_eq_zero none)) ?_
    exact (Nat.dvd_mod_iff cluster.sectorSize_dvd).mpr sectors
  have pages : data.length / cluster.bytes * 4096 ≤
      cluster.bytes * (data.length / cluster.bytes) := by
    rw [Nat.mul_comm cluster.bytes]
    exact Nat.mul_le_mul_left _ large
  rw [count] at used
  refine lzoCompress_returns (boundedPages_indexCompress _) size outputs ?_ ?_ ?_ ?_
  · exact (Nat.div_le_self _ _).trans_lt (small.trans (by decide))
  · omega
  · exact fun _ => by omega
  · rcases Nat.lt_or_ge data.length cluster.bytes with below | above
    · have huge := le_wordSub_of_lt below cluster.bytes_le
      omega
    · rw [wordSub_of_le above (small.trans (by decide))]
      have first : 1 ≤ data.length / cluster.bytes :=
        (Nat.one_le_div_iff cluster.bytes_pos).mpr above
      have others : (data.length / cluster.bytes - 1) * 4096 ≤
          cluster.bytes * (data.length / cluster.bytes) - cluster.bytes := by
        rw [← Nat.mul_sub_one, Nat.mul_comm]
        exact Nat.mul_le_mul_right _ large
      have one : cluster.bytes ≤ cluster.bytes * (data.length / cluster.bytes) :=
        Nat.le_mul_of_pos_right _ first
      omega

/--
A buffer gives the piece back exactly when the piece is made of pages and the length
of the stream has 32 bits.  A piece below 2 GiB is given back by every run, whatever
compresses its pages, exactly when it is made of pages.
-/
theorem lzoCompress_restores_iff
    (cluster : ClusterSize) (data : Bytes) (sectors : sectorSize ∣ data.length) :
    (∀ compress decompress memory buffer, BoundedPages cluster.bytes compress →
      LosslessPages cluster.bytes compress decompress →
      memory.length = lzoRoom cluster.bytes (data.length / cluster.bytes) →
      lzoCompress compress memory data cluster.bytes = .ok (some buffer) →
        (Restores cluster compress decompress data buffer ↔
          cluster.bytes ∣ data.length ∧
            lzoUsed cluster.bytes compress data < 2 ^ 32)) ∧
      (data.length < 2 ^ 31 →
        (EveryRunRestores cluster data ↔ cluster.bytes ∣ data.length)) := by
  refine ⟨fun compress decompress memory buffer bounded lossless size made =>
    restores_iff bounded size lossless made, fun small => ⟨fun restores => ?_, fun whole => ?_⟩⟩
  · by_contra rest
    have few : (pagesOf cluster.bytes data).length < 256 ^ 4 := by
      rw [length_pagesOf]
      exact (Nat.div_le_self _ _).trans_lt (small.trans (by decide))
    have size : (List.replicate (lzoRoom cluster.bytes (data.length / cluster.bytes))
        (0 : UInt8)).length = lzoRoom cluster.bytes (data.length / cluster.bytes) :=
      List.length_replicate
    obtain ⟨buffer, made⟩ := indexCompress_returns sectors rest small size
    have bounded := @boundedPages_indexCompress cluster (pagesOf cluster.bytes data)
    have lossless := @losslessPages_indexCompress cluster _ few
    have given := (restores _ _ _ bounded lossless size).2 buffer made
    exact rest ((restores_iff bounded size lossless made).mp given).1
  · intro compress decompress memory bounded lossless size
    obtain ⟨failures, -⟩ := lzoCompress_spec bounded size
    refine ⟨fun failed => ?_, fun buffer made => ?_⟩
    · rcases failures _ failed with ⟨page, -, ret, -, other⟩ | many
      · cases other
      · have few := Nat.div_le_self data.length cluster.bytes
        omega
    · exact (restores_iff bounded size lossless made).mpr
        ⟨whole, lzoUsed_lt bounded size made small⟩

/-- A piece of one sector in a cluster of one sector is given back by every run. -/
theorem lzoCompress_restores_sector :
    EveryRunRestores ⟨12, by decide, by decide⟩ (List.replicate 4096 0) :=
  ((lzoCompress_restores_iff ⟨12, by decide, by decide⟩ (List.replicate 4096 0)
    (by rw [List.length_replicate]; decide)).2
      (by rw [List.length_replicate]; decide)).mpr
        (by rw [List.length_replicate]; decide)

/-- Of three sectors only two come back where a cluster has two. -/
theorem lzoCompress_loses_sector :
    ∃ buffer,
      BoundedPages 8192 (indexCompress [List.replicate 8192 0]) ∧
      LosslessPages 8192 (indexCompress [List.replicate 8192 0])
        (indexDecompress [List.replicate 8192 0]) ∧
      lzoCompress (indexCompress [List.replicate 8192 0])
        (List.replicate (lzoRoom 8192 1) 0) (List.replicate 12288 0) 8192 =
          .ok (some buffer) ∧
      lzoDecompress (indexDecompress [List.replicate 8192 0]) 8192 buffer =
        some (List.replicate 8192 0) := by
  have pages : pagesOf 8192 (List.replicate 12288 0) = [List.replicate 8192 0] := by
    rw [pagesOf, List.length_replicate]
    simp only [Nat.reduceDiv, List.range_one, List.map_cons, List.map_nil, slice,
      List.drop_replicate, List.take_replicate]
    rfl
  have size : (List.replicate (lzoRoom 8192 1) (0 : UInt8)).length =
      lzoRoom 8192 ((List.replicate 12288 (0 : UInt8)).length / 8192) := by
    rw [List.length_replicate, List.length_replicate]
  have bounded := @boundedPages_indexCompress ⟨13, by decide, by decide⟩
    [List.replicate 8192 0]
  have lossless := @losslessPages_indexCompress ⟨13, by decide, by decide⟩
    [List.replicate 8192 0] (by rw [List.length_singleton]; decide)
  have small : (List.replicate 12288 (0 : UInt8)).length < 2 ^ 31 := by
    rw [List.length_replicate]
    decide
  obtain ⟨buffer, returned⟩ := @indexCompress_returns ⟨13, by decide, by decide⟩
    (List.replicate (lzoRoom 8192 1) 0) (List.replicate 12288 0)
    (by rw [List.length_replicate]; decide) (by rw [List.length_replicate]; decide)
    small size
  have made : lzoCompress (indexCompress (pagesOf 8192 (List.replicate 12288 0)))
      (List.replicate (lzoRoom 8192 1) 0) (List.replicate 12288 0) 8192 =
        .ok (some buffer) := returned
  rw [pages] at made
  have read : lzoDecompress (indexDecompress [List.replicate 8192 0]) 8192 buffer =
      some (pagesOf 8192 (List.replicate 12288 0)).flatten :=
    (@lzoDecompress_eq ⟨13, by decide, by decide⟩ _ bounded _ _ size _ lossless
      buffer made
      (@lzoUsed_lt ⟨13, by decide, by decide⟩ _ bounded _ _ size buffer made small)).1
  have whole : (pagesOf 8192 (List.replicate 12288 0)).flatten = List.replicate 8192 0 := by
    rw [pages, List.flatten_cons, List.flatten_nil, List.append_nil]
  rw [whole] at read
  exact ⟨buffer, bounded, lossless, made, read⟩

end Reading

/-! ## What a compressed piece saves -/

/-- A buffer fills clusters and is shorter than the piece, and it holds all segments. -/
def SavesSegments
    (cluster : ClusterSize) (compress : PageCompressor) (data buffer : Bytes) : Prop :=
  cluster.bytes ∣ buffer.length ∧ buffer.length < data.length ∧
    ∃ outs, List.Forall₂ (fun page out => compress page = .ok out)
        (pagesOf cluster.bytes data) outs ∧
      headerAfter cluster.bytes 4 outs ≤ buffer.length ∧
        HoldsSegments cluster.bytes buffer 4 outs

/-- What `lzo_compress` returns saves a cluster. -/
def LzoSaves (cluster : ClusterSize) (data : Bytes) : Prop :=
  ∀ compress memory, BoundedPages cluster.bytes compress →
    (∀ page ∈ pagesOf cluster.bytes data, ∃ out, compress page = .ok out) →
    memory.length = lzoRoom cluster.bytes (data.length / cluster.bytes) →
      NoneOr (SavesSegments cluster compress data)
        (lzoCompress compress memory data cluster.bytes)

section Saving

variable {cluster : ClusterSize} {data : Bytes} (piece : IsPiece cluster data)

include piece in
theorem lzoSaves_iff : LzoSaves cluster data ↔ cluster.bytes ≤ maxCompExtentSize := by
  have limit := piece.length_le
  rw [maxCompExtentSize] at limit
  have few : data.length / cluster.bytes < 2 ^ 32 :=
    (Nat.div_le_self _ _).trans_lt (by omega)
  constructor
  · intro saves
    by_contra large
    have big := Nat.lt_of_not_le large
    have length := piece.length_eq big
    have none : pagesOf cluster.bytes data = [] := by
      rw [← List.length_eq_zero_iff, length_pagesOf]
      exact Nat.div_eq_of_lt (by omega)
    have bounded := @boundedPages_indexCompress cluster []
    have size : (List.replicate (lzoRoom cluster.bytes (data.length / cluster.bytes))
        (0 : UInt8)).length = lzoRoom cluster.bytes (data.length / cluster.bytes) :=
      List.length_replicate
    have outputs : List.Forall₂ (fun page out => indexCompress [] page = .ok out)
        (pagesOf cluster.bytes data) [] := by
      rw [none]
      exact List.Forall₂.nil
    have huge := le_wordSub_of_lt (length.trans_lt big) cluster.bytes_le
    -- a stream without segments is kept, since the limit is huge
    obtain ⟨buffer, made⟩ := lzoCompress_returns bounded size outputs few
      (show 4 < 2 ^ 32 by decide)
      (fun nonempty => absurd rfl nonempty)
      (by rw [headerAfter, List.foldl_nil]; omega)
    have either := saves (indexCompress []) _ bounded
      (by rw [none]; exact fun page member => absurd member List.not_mem_nil) size
    rw [made] at either
    obtain ⟨whole, shorter, outs, -, room, -⟩ := noneOr_some.mp either
    have positive := (le_headerAfter outs 4).trans room
    have cluster_le := Nat.le_of_dvd (by omega) whole
    omega
  · intro small compress memory bounded compresses size
    have room := piece.le_length small
    obtain ⟨failures, buffers⟩ := lzoCompress_spec bounded size
    cases result : lzoCompress compress memory data cluster.bytes with
    | error failure =>
      rcases failures failure result with ⟨page, member, ret, failed, -⟩ | many
      · obtain ⟨out, compressed⟩ := compresses page member
        rw [failed] at compressed
        cases compressed
      · omega
    | ok kept =>
      cases kept with
      | none => exact Or.inl rfl
      | some buffer =>
        obtain ⟨outs, outputs, short, saves, length, streams⟩ := buffers buffer result
        have fits := headerAfter_lt short
          (by rw [← outputs.length_eq, length_pagesOf]) (by omega : data.length < 2 ^ 31)
        rw [Nat.mod_eq_of_lt fits] at saves length
        rw [wordSub_of_le room (by rw [wordModulus]; omega)] at saves
        refine noneOr_some.mpr ⟨?_, ?_, outs, outputs, ?_, (streams fits).2⟩
        · rw [length]
          exact dvd_sectorAlign _ _
        · rw [length]
          exact sectorAlign_lt cluster.bytes_pos room (Nat.le_of_not_lt saves)
        · rw [length]
          exact le_sectorAlign cluster.bytes_pos _

end Saving

/--
What each of the three functions returns for a piece fills clusters, is shorter than
the piece and holds all that was compressed exactly when a cluster is not larger than
the largest piece.
-/
theorem compress_saves_iff
    (cluster : ClusterSize) (data : Bytes) (piece : IsPiece cluster data) :
    (ZlibSaves cluster data ↔ cluster.bytes ≤ maxCompExtentSize) ∧
      (LzoSaves cluster data ↔ cluster.bytes ≤ maxCompExtentSize) ∧
        (ZstdSaves cluster data ↔ cluster.bytes ≤ maxCompExtentSize) :=
  ⟨zlibSaves_iff piece, lzoSaves_iff piece, zstdSaves_iff piece⟩

/-- Two sectors in clusters of one. -/
theorem compress_saves_sectors :
    ZlibSaves ⟨12, by decide, by decide⟩ (List.replicate 8192 0) ∧
      LzoSaves ⟨12, by decide, by decide⟩ (List.replicate 8192 0) ∧
        ZstdSaves ⟨12, by decide, by decide⟩ (List.replicate 8192 0) := by
  have length : (List.replicate 8192 (0 : UInt8)).length = 8192 := List.length_replicate
  obtain ⟨zlib, lzo, zstd⟩ :=
    compress_saves_iff ⟨12, by decide, by decide⟩ (List.replicate 8192 0)
      ⟨by rw [length]; decide, 8192, by decide, by rw [length]; decide⟩
  exact ⟨zlib.mpr (by decide), lzo.mpr (by decide), zstd.mpr (by decide)⟩

/-- A piece of 128 KiB becomes a buffer of 256 KiB where that is the size of a cluster. -/
theorem compress_doubles :
    IsPiece ⟨18, by decide, by decide⟩ (List.replicate 131072 0) ∧
      ∃ buffer,
        zstdCompress (fun _ => .ok [0]) (List.replicate 131072 0) 262144 =
          .ok (some buffer) ∧ buffer.length = 262144 := by
  have length : (List.replicate 131072 (0 : UInt8)).length = 131072 := List.length_replicate
  refine ⟨⟨by rw [length]; decide, 524288, by decide, by rw [length]; decide⟩,
    resize [0] (clearBits 64 (1 + 262144 - 1) 262144), ?_, ?_⟩
  · rw [zstdCompress, length]
    dsimp only
    rw [if_neg (by decide)]
    rfl
  · rw [length_resize]
    decide

end Ntfs2Btrfs
