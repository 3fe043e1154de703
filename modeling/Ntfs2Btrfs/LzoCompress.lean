import Ntfs2Btrfs.Compression

/-!
# LZO streams

`lzo_compress` compresses a piece page by page, where a page is a cluster.  The
stream starts with its length; every segment has a header with the length of what
follows, and a header does not cross the boundary of a page.  The number of pages
is a quotient, so what remains of a piece that is not made of pages is lost.
-/

namespace Ntfs2Btrfs

open ByteStore

/-! ## The code -/

/-- `lzo_max_outlen`. -/
def lzoMaxOutlen (inlen : Nat) : Nat :=
  inlen + inlen / 16 + 64 + 3

/-- The size of the buffer for a number of pages. -/
def lzoRoom (clusterSize pages : Nat) : Nat :=
  4 + (lzoMaxOutlen clusterSize + 2 * 4) * pages

/-- `lzo1x_1_compress`: the compressed page, or an error. -/
abbrev PageCompressor := Bytes → Except Int Bytes

/-- The buffer, the length at its start, and where the next segment is written. -/
structure LzoState where
  outbuf : Bytes
  outSize : Nat
  out : Nat

/-- Write inside the buffer. -/
def lzoWrite (outbuf : Bytes) (offset : Nat) (bytes : Bytes) : Except RewriteError Bytes :=
  if offset + bytes.length ≤ outbuf.length then .ok (patch outbuf offset bytes)
  else .error .overrun

/-- Add to the length at the start and to the position. -/
def LzoState.advance (state : LzoState) (count : Nat) : Except RewriteError LzoState :=
  (lzoWrite state.outbuf 0 (le 4 ((state.outSize + count) % 2 ^ 32))).map fun outbuf =>
    ⟨outbuf, (state.outSize + count) % 2 ^ 32, state.out + count⟩

/-- A header does not cross the boundary of a page. -/
def lzoPad (clusterSize : Nat) (state : LzoState) : Except RewriteError LzoState :=
  let rest := clusterSize - state.outSize % clusterSize
  -- new page needs to start at a 32-bit boundary
  if rest < 4 then
    (lzoWrite state.outbuf state.out (List.replicate rest 0)).bind fun outbuf =>
      LzoState.advance { state with outbuf := outbuf } rest
  else .ok state

/-- The round of the loop for one page. -/
def lzoPage
    (compress : PageCompressor) (clusterSize dataLength : Nat) (state : LzoState)
    (page : Bytes) : Except RewriteError (Option LzoState) :=
  match compress page with
  | .error ret => .error (.codec "lzo1x_1_compress" ret)
  | .ok segment => do
      let outbuf ← lzoWrite state.outbuf state.out segment
      let outbuf ← lzoWrite outbuf (state.out - 4) (le 4 segment.length)
      let state ← LzoState.advance { state with outbuf := outbuf } (segment.length + 4)
      let state ← lzoPad clusterSize state
      return if state.outSize ≥ dataLength then none else some state

/-- The loop over the pages. -/
def lzoPages (compress : PageCompressor) (clusterSize dataLength : Nat) :
    List Bytes → LzoState → Except RewriteError (Option LzoState)
  | [], state => .ok (some state)
  | page :: rest, state => do
      match ← lzoPage compress clusterSize dataLength state page with
      | none => return none
      | some state => lzoPages compress clusterSize dataLength rest state

/-- The pages of a piece. -/
def pagesOf (clusterSize : Nat) (data : Bytes) : List Bytes :=
  (List.range (data.length / clusterSize)).map fun index =>
    slice data (index * clusterSize) clusterSize

/-- The end of `lzo_compress`: the buffer is cut, and rounded up when it saves a sector. -/
def lzoFinish (clusterSize dataLength : Nat) (state : LzoState) : Option Bytes :=
  let outbuf := resize state.outbuf state.outSize
  -- space saving less than one sector
  if outbuf.length > wordSub dataLength clusterSize then none
  -- round to sector, and zero end
  else some (resize outbuf (clearBits 64 (outbuf.length + clusterSize - 1) clusterSize))

/-- `lzo_compress`, with what was in the memory of its buffer. -/
def lzoCompress
    (compress : PageCompressor) (memory data : Bytes) (clusterSize : Nat) :
    Except RewriteError (Option Bytes) := do
  let outbuf ← lzoWrite memory 0 (le 4 4)
  let final ← lzoPages compress clusterSize data.length (pagesOf clusterSize data)
    ⟨outbuf, 4, 8⟩
  -- the counter has 32 bits, and with that many pages the loop goes on behind them
  if data.length / clusterSize ≥ 2 ^ 32 ∧ final.isSome then .error .overrun
  else return final.bind (lzoFinish clusterSize data.length)

/-! ## Reading a stream -/

/-- Where a header starts: not so near to the end of a page that it crosses it. -/
def skipPadding (clusterSize position : Nat) : Nat :=
  if clusterSize - position % clusterSize < 4 then
    position + (clusterSize - position % clusterSize)
  else position

/-- The segments from a position up to the length of the stream. -/
def lzoSegmentsFrom (clusterSize : Nat) (stream : Bytes) (total : Nat) :
    Nat → Nat → Option (List Bytes)
  | 0, _ => none
  | count + 1, position =>
      let header := skipPadding clusterSize position
      if position = total ∨ header = total then some []
      else
        let length := unle (slice stream header 4)
        if total < header + 4 + length then none
        else
          (lzoSegmentsFrom clusterSize stream total count (header + 4 + length)).map
            (slice stream (header + 4) length :: ·)

/-- The segments of a stream. -/
def lzoSegments (clusterSize : Nat) (stream : Bytes) : Option (List Bytes) :=
  let total := unle (slice stream 0 4)
  if stream.length < total then none
  else lzoSegmentsFrom clusterSize stream total (total + 1) 4

/-- The data of a stream. -/
def lzoDecompress
    (decompress : Bytes → Option Bytes) (clusterSize : Nat) (stream : Bytes) :
    Option Bytes :=
  (lzoSegments clusterSize stream).bind fun segments =>
    (segments.mapM decompress).map List.flatten

/-! ## The layout of a stream -/

/-- The position of the header after a segment. -/
def nextHeader (clusterSize header : Nat) (segment : Bytes) : Nat :=
  skipPadding clusterSize (header + 4 + segment.length)

/-- The position of the header after a number of segments. -/
def headerAfter (clusterSize header : Nat) (segments : List Bytes) : Nat :=
  segments.foldl (nextHeader clusterSize) header

/-- A buffer holds segments, the first of which has its header at a position. -/
def HoldsSegments (clusterSize : Nat) (buffer : Bytes) : Nat → List Bytes → Prop
  | _, [] => True
  | header, segment :: rest =>
      slice buffer header 4 = le 4 segment.length ∧
        slice buffer (header + 4) segment.length = segment ∧
          HoldsSegments clusterSize buffer (nextHeader clusterSize header segment) rest

section Headers

variable {clusterSize : Nat}

theorem le_skipPadding (clusterSize position : Nat) :
    position ≤ skipPadding clusterSize position := by
  rw [skipPadding]
  split_ifs
  · exact Nat.le_add_right _ _
  · exact le_rfl

theorem skipPadding_le (clusterSize position : Nat) :
    skipPadding clusterSize position ≤ position + 3 := by
  rw [skipPadding]
  split_ifs with near
  · omega
  · exact Nat.le_add_right _ _

/-- A position is skipped only to the start of a page. -/
theorem skipPadding_cases (positive : 0 < clusterSize) (position : Nat) :
    skipPadding clusterSize position = position ∨
      clusterSize ∣ skipPadding clusterSize position := by
  rw [skipPadding]
  split_ifs
  · refine Or.inr (Nat.dvd_of_mod_eq_zero ?_)
    have small := Nat.mod_lt position positive
    have split := Nat.mod_add_div position clusterSize
    have whole : position + (clusterSize - position % clusterSize) =
        clusterSize + clusterSize * (position / clusterSize) := by omega
    rw [whole, Nat.add_mul_mod_self_left, Nat.mod_self]
  · exact Or.inl rfl

theorem headerAfter_append (header : Nat) (segments others : List Bytes) :
    headerAfter clusterSize header (segments ++ others) =
      headerAfter clusterSize (headerAfter clusterSize header segments) others :=
  List.foldl_append

theorem headerAfter_concat (header : Nat) (segments : List Bytes) (segment : Bytes) :
    headerAfter clusterSize header (segments ++ [segment]) =
      nextHeader clusterSize (headerAfter clusterSize header segments) segment :=
  headerAfter_append header segments [segment]

theorem lt_nextHeader (header : Nat) (segment : Bytes) :
    header + 4 + segment.length ≤ nextHeader clusterSize header segment :=
  le_skipPadding _ _

theorem le_headerAfter (segments : List Bytes) :
    ∀ header, header ≤ headerAfter clusterSize header segments := by
  induction segments with
  | nil => exact fun header => le_rfl
  | cons segment rest ih =>
    intro header
    have first : header + 4 + segment.length ≤ nextHeader clusterSize header segment :=
      lt_nextHeader header segment
    exact (by omega : header ≤ nextHeader clusterSize header segment).trans (ih _)

/-- A header after segments of bounded length. -/
theorem headerAfter_le
    {bound : Nat} {segments : List Bytes}
    (bounded : ∀ segment ∈ segments, segment.length ≤ bound) :
    headerAfter clusterSize 4 segments ≤ 4 + segments.length * (bound + 7) := by
  induction segments using List.reverseRecOn with
  | nil => exact Nat.le_add_right _ _
  | append_singleton rest segment ih =>
    have before := ih fun other member => bounded other (by simp [member])
    have length := bounded segment (by simp)
    have skipped := skipPadding_le clusterSize
      (headerAfter clusterSize 4 rest + 4 + segment.length)
    rw [headerAfter_concat, nextHeader, List.length_append, List.length_singleton,
      Nat.succ_mul]
    omega

end Headers

section Layout

variable {clusterSize : Nat} {buffer : Bytes}

theorem holdsSegments_append
    {segments : List Bytes} {segment : Bytes} :
    ∀ {header}, HoldsSegments clusterSize buffer header (segments ++ [segment]) ↔
      HoldsSegments clusterSize buffer header segments ∧
        slice buffer (headerAfter clusterSize header segments) 4 = le 4 segment.length ∧
          slice buffer (headerAfter clusterSize header segments + 4) segment.length =
            segment := by
  induction segments with
  | nil =>
    intro header
    simp only [List.nil_append, HoldsSegments, and_true, true_and]
    rfl
  | cons first rest ih =>
    intro header
    simp only [List.cons_append, HoldsSegments, ih, and_assoc]
    rfl

/-- A write before or behind the segments leaves them as they are. -/
theorem holdsSegments_patch
    {offset : Nat} {bytes : Bytes} (inside : offset + bytes.length ≤ buffer.length)
    {segments : List Bytes} :
    ∀ {header}, offset + bytes.length ≤ header ∨
        headerAfter clusterSize header segments ≤ offset →
      HoldsSegments clusterSize buffer header segments →
        HoldsSegments clusterSize (patch buffer offset bytes) header segments := by
  induction segments with
  | nil => exact fun _ _ => trivial
  | cons segment rest ih =>
    intro header apart holds
    obtain ⟨length, content, others⟩ := holds
    have next : header + 4 + segment.length ≤ nextHeader clusterSize header segment :=
      lt_nextHeader header segment
    have last : nextHeader clusterSize header segment ≤
        headerAfter clusterSize header (segment :: rest) :=
      le_headerAfter rest (nextHeader clusterSize header segment)
    refine ⟨?_, ?_, ih ?_ others⟩
    · rw [slice_patch_disjoint inside (by omega), length]
    · rw [slice_patch_disjoint inside (by omega), content]
    · rcases apart with before | behind
      · exact Or.inl (by omega)
      · exact Or.inr behind

/-- A buffer that agrees with another one up to the end of the segments holds them too. -/
theorem holdsSegments_congr
    {other : Bytes} {size : Nat} {segments : List Bytes}
    (agree : ∀ offset count, offset + count ≤ size →
      slice other offset count = slice buffer offset count) :
    ∀ {header}, headerAfter clusterSize header segments ≤ size →
      HoldsSegments clusterSize buffer header segments →
        HoldsSegments clusterSize other header segments := by
  induction segments with
  | nil => exact fun _ _ => trivial
  | cons segment rest ih =>
    intro header room holds
    obtain ⟨length, content, others⟩ := holds
    have next : header + 4 + segment.length ≤ nextHeader clusterSize header segment :=
      lt_nextHeader header segment
    have last : nextHeader clusterSize header segment ≤
        headerAfter clusterSize header (segment :: rest) :=
      le_headerAfter rest (nextHeader clusterSize header segment)
    refine ⟨?_, ?_, ih room others⟩
    · rw [agree _ _ (by omega), length]
    · rw [agree _ _ (by omega), content]

/-- A buffer that holds segments up to the length of the stream is read back. -/
theorem lzoSegmentsFrom_eq
    {total : Nat} {segments : List Bytes} :
    ∀ {count position}, segments.length < count →
      headerAfter clusterSize (skipPadding clusterSize position) segments = total →
      (∀ segment ∈ segments, segment.length < 256 ^ 4) →
      HoldsSegments clusterSize buffer (skipPadding clusterSize position) segments →
        lzoSegmentsFrom clusterSize buffer total count position = some segments := by
  induction segments with
  | nil =>
    intro count position enough stop _ _
    obtain ⟨count, rfl⟩ := Nat.exists_eq_succ_of_ne_zero (Nat.ne_of_gt enough)
    rw [lzoSegmentsFrom]
    exact if_pos (Or.inr stop)
  | cons segment rest ih =>
    intro count position enough stop small holds
    obtain ⟨count, rfl⟩ := Nat.exists_eq_succ_of_ne_zero (by omega : count ≠ 0)
    have start := le_skipPadding clusterSize position
    rw [lzoSegmentsFrom]
    dsimp only
    generalize skipPadding clusterSize position = header at start stop holds ⊢
    obtain ⟨length, content, others⟩ := holds
    have next : header + 4 + segment.length ≤ nextHeader clusterSize header segment :=
      lt_nextHeader header segment
    have last : nextHeader clusterSize header segment ≤ total := by
      rw [← stop]
      exact le_headerAfter rest (nextHeader clusterSize header segment)
    have read : unle (slice buffer header 4) = segment.length := by
      rw [length, unle_le_of_lt (small segment List.mem_cons_self)]
    have tail := @ih count (header + 4 + segment.length) (Nat.lt_of_succ_lt_succ enough) stop
      (fun other member => small other (List.mem_cons_of_mem _ member)) others
    rw [if_neg (by omega), read, if_neg (by omega), content, tail]
    rfl

end Layout

/-! ## The loop lays the segments out -/

section Loop

variable {cluster : ClusterSize} {room : Nat}

theorem four_le_bytes (cluster : ClusterSize) : 4096 ≤ cluster.bytes :=
  cluster.sectorSize_le

/-- The remainders of 32-bit lengths are those of the lengths. -/
theorem mod_word_mod (cluster : ClusterSize) (value : Nat) :
    value % 2 ^ 32 % cluster.bytes = value % cluster.bytes :=
  Nat.mod_mod_of_dvd _ (Nat.pow_dvd_pow 2 (cluster.upper.trans (by decide)))

/-- What the loop keeps: the segments of the pages so far are in the buffer. -/
structure LaidOut
    (cluster : ClusterSize) (room : Nat) (segments : List Bytes) (state : LzoState) :
    Prop where
  length : state.outbuf.length = room
  size : state.outSize = headerAfter cluster.bytes 4 segments % 2 ^ 32
  out : state.out = headerAfter cluster.bytes 4 segments + 4
  total : slice state.outbuf 0 4 = le 4 state.outSize
  holds : HoldsSegments cluster.bytes state.outbuf 4 segments

theorem lzoWrite_eq
    {outbuf bytes : Bytes} {offset : Nat} (inside : offset + bytes.length ≤ outbuf.length) :
    lzoWrite outbuf offset bytes = .ok (patch outbuf offset bytes) :=
  if_pos inside

theorem advance_eq {state : LzoState} (count : Nat) (long : 4 ≤ state.outbuf.length) :
    state.advance count =
      .ok ⟨patch state.outbuf 0 (le 4 ((state.outSize + count) % 2 ^ 32)),
        (state.outSize + count) % 2 ^ 32, state.out + count⟩ := by
  rw [LzoState.advance, lzoWrite_eq (by rw [length_le]; omega)]
  rfl

/-- Padding puts the next header where it is laid out. -/
theorem lzoPad_eq
    {segments : List Bytes} {position : Nat} {state : LzoState}
    (length : state.outbuf.length = room) (header : 4 ≤ room)
    (size : state.outSize = position % 2 ^ 32) (out : state.out = position + 4)
    (total : slice state.outbuf 0 4 = le 4 state.outSize)
    (holds : HoldsSegments cluster.bytes state.outbuf 4 segments)
    (after : headerAfter cluster.bytes 4 segments = skipPadding cluster.bytes position)
    (fits : skipPadding cluster.bytes position ≠ position →
      skipPadding cluster.bytes position + 4 ≤ room) :
    ∃ next, lzoPad cluster.bytes state = .ok next ∧ LaidOut cluster room segments next := by
  have small := Nat.mod_lt position cluster.bytes_pos
  rw [lzoPad, size, mod_word_mod]
  rw [skipPadding] at after fits
  by_cases near : cluster.bytes - position % cluster.bytes < 4
  · rw [if_pos near] at after fits
    generalize restEq : cluster.bytes - position % cluster.bytes = rest at near after fits ⊢
    have enough := fits (by omega)
    have zeros : state.out + (List.replicate rest (0 : UInt8)).length ≤
        state.outbuf.length := by
      rw [List.length_replicate, out, length]
      omega
    have patched : (patch state.outbuf state.out (List.replicate rest 0)).length = room :=
      (length_patch zeros).trans length
    have kept : HoldsSegments cluster.bytes
        (patch state.outbuf state.out (List.replicate rest 0)) 4 segments :=
      holdsSegments_patch zeros (Or.inr (by rw [after, out]; omega)) holds
    have front : 0 + (le 4 ((position % 2 ^ 32 + rest) % 2 ^ 32)).length ≤
        (patch state.outbuf state.out (List.replicate rest 0)).length := by
      rw [length_le, patched]
      omega
    have advanced := @advance_eq
      { state with outbuf := patch state.outbuf state.out (List.replicate rest 0) } rest
      (by dsimp only; omega)
    dsimp only at advanced
    rw [size] at advanced
    rw [if_pos near, lzoWrite_eq zeros]
    refine ⟨_, advanced, (length_patch front).trans patched, ?_, ?_, ?_, ?_⟩
    · rw [after]
      exact Nat.mod_add_mod _ _ _
    · dsimp only
      rw [after, out]
      omega
    · have written := slice_patch_self front
      rwa [length_le] at written
    · exact holdsSegments_patch front (Or.inl (by rw [length_le])) kept
  · rw [if_neg near] at after ⊢
    exact ⟨state, rfl, length, by rw [size, after], by rw [out, after], total, holds⟩

/-- The round for a page lays its segment out behind the others. -/
theorem lzoPage_eq
    {compress : PageCompressor} {dataLength : Nat} {segments : List Bytes}
    {state : LzoState} {page segment : Bytes}
    (laid : LaidOut cluster room segments state) (compressed : compress page = .ok segment)
    (fits : headerAfter cluster.bytes 4 segments + 4 + segment.length ≤ room)
    (padFits : headerAfter cluster.bytes 4 (segments ++ [segment]) ≠
        headerAfter cluster.bytes 4 segments + 4 + segment.length →
      headerAfter cluster.bytes 4 (segments ++ [segment]) + 4 ≤ room) :
    ∃ next, LaidOut cluster room (segments ++ [segment]) next ∧
      lzoPage compress cluster.bytes dataLength state page =
        .ok (if next.outSize ≥ dataLength then none else some next) := by
  obtain ⟨length, size, out, total, holds⟩ := laid
  have after : headerAfter cluster.bytes 4 (segments ++ [segment]) =
      skipPadding cluster.bytes
        (headerAfter cluster.bytes 4 segments + 4 + segment.length) :=
    headerAfter_concat 4 segments segment
  have first : 4 ≤ headerAfter cluster.bytes 4 segments := le_headerAfter segments 4
  have headerRoom : 4 ≤ room := by omega
  -- the segment
  have inside : state.out + segment.length ≤ state.outbuf.length := by omega
  have kept := holdsSegments_patch inside (Or.inr (by omega)) holds
  have content := slice_patch_self inside
  have size₁ := (length_patch inside).trans length
  -- its header
  have inside₂ : state.out - 4 + (le 4 segment.length).length ≤
      (patch state.outbuf state.out segment).length := by
    rw [length_le]
    omega
  have kept₂ := holdsSegments_patch inside₂ (Or.inr (by omega)) kept
  have lengthField := slice_patch_self inside₂
  have content₂ := slice_patch_disjoint inside₂
    (Or.inr (by rw [length_le]; omega) : state.out + segment.length ≤ state.out - 4 ∨
      state.out - 4 + (le 4 segment.length).length ≤ state.out)
  have size₂ := (length_patch inside₂).trans size₁
  -- the length of the stream
  generalize middle : patch (patch state.outbuf state.out segment) (state.out - 4)
    (le 4 segment.length) = buffer at kept₂ lengthField content₂ size₂
  have inside₃ :
      0 + (le 4 ((state.outSize + (segment.length + 4)) % 2 ^ 32)).length ≤ buffer.length := by
    rw [length_le]
    omega
  have advanced := @advance_eq { state with outbuf := buffer } (segment.length + 4)
    (by dsimp only; omega)
  have written := slice_patch_self inside₃
  have field₃ := slice_patch_disjoint inside₃
    (Or.inr (by rw [length_le]; omega) : state.out - 4 + 4 ≤ 0 ∨
      0 + (le 4 ((state.outSize + (segment.length + 4)) % 2 ^ 32)).length ≤ state.out - 4)
  have content₃ := slice_patch_disjoint inside₃
    (Or.inr (by rw [length_le]; omega) : state.out + segment.length ≤ 0 ∨
      0 + (le 4 ((state.outSize + (segment.length + 4)) % 2 ^ 32)).length ≤ state.out)
  have kept₃ := holdsSegments_patch inside₃ (Or.inl (by rw [length_le])) kept₂
  rw [length_le] at lengthField written
  have start : state.out - 4 = headerAfter cluster.bytes 4 segments := by omega
  obtain ⟨next, padded, laid⟩ :=
    @lzoPad_eq cluster room (segments ++ [segment])
      (headerAfter cluster.bytes 4 segments + 4 + segment.length)
      ⟨patch buffer 0 (le 4 ((state.outSize + (segment.length + 4)) % 2 ^ 32)),
        (state.outSize + (segment.length + 4)) % 2 ^ 32, state.out + (segment.length + 4)⟩
      ((length_patch inside₃).trans size₂) headerRoom
      (by
        dsimp only
        rw [size, Nat.mod_add_mod]
        congr 1
        omega)
      (by dsimp only; omega) written
      (holdsSegments_append.mpr ⟨kept₃, by rw [← start, field₃, lengthField],
        by rw [← out, content₃, content₂, content]⟩)
      after (by rw [← after]; exact padFits)
  refine ⟨next, laid, ?_⟩
  rw [lzoPage, compressed]
  dsimp only
  rw [lzoWrite_eq inside]
  change (lzoWrite (patch state.outbuf state.out segment) (state.out - 4) _ >>= _) = _
  rw [lzoWrite_eq inside₂, middle]
  change (LzoState.advance { state with outbuf := buffer } _ >>= _) = _
  rw [advanced]
  change (lzoPad cluster.bytes _ >>= _) = _
  rw [padded]
  rfl

/-- The documented bound of the compression of a page. -/
def BoundedPages (clusterSize : Nat) (compress : PageCompressor) : Prop :=
  ∀ page segment, page.length = clusterSize → compress page = .ok segment →
    segment.length ≤ lzoMaxOutlen clusterSize

theorem lzoRoom_eq (clusterSize pages : Nat) :
    lzoRoom clusterSize pages = 4 + pages * (lzoMaxOutlen clusterSize + 8) := by
  rw [lzoRoom, Nat.mul_comm]

section Room

variable {count : Nat} {segments : List Bytes} {segment : Bytes}
variable (few : segments.length + 1 ≤ count)
variable (bounded : ∀ other ∈ segments ++ [segment],
  other.length ≤ lzoMaxOutlen cluster.bytes)

include few bounded in
theorem segment_fits :
    headerAfter cluster.bytes 4 segments + 4 + segment.length ≤
      lzoRoom cluster.bytes count := by
  have before := @headerAfter_le cluster.bytes _ segments
    fun other member => bounded other (by simp [member])
  have last := bounded segment (by simp)
  have whole : (segments.length + 1) * (lzoMaxOutlen cluster.bytes + 8) ≤
      count * (lzoMaxOutlen cluster.bytes + 8) := Nat.mul_le_mul_right _ few
  rw [Nat.succ_mul, Nat.mul_add] at whole
  rw [Nat.mul_add] at before
  rw [lzoRoom_eq]
  omega

include few bounded in
/-- The zeros behind the last segment fit: they end four bytes behind a page. -/
theorem padding_fits
    (padded : headerAfter cluster.bytes 4 (segments ++ [segment]) ≠
      headerAfter cluster.bytes 4 segments + 4 + segment.length) :
    headerAfter cluster.bytes 4 (segments ++ [segment]) + 4 ≤
      lzoRoom cluster.bytes count := by
  have large := four_le_bytes cluster
  have before := @headerAfter_le cluster.bytes _ (segments ++ [segment]) bounded
  have start : cluster.bytes ∣ headerAfter cluster.bytes 4 (segments ++ [segment]) := by
    rw [headerAfter_concat] at padded ⊢
    exact (skipPadding_cases cluster.bytes_pos _).resolve_left padded
  rw [List.length_append, List.length_singleton] at before
  rw [lzoRoom_eq]
  generalize headerAfter cluster.bytes 4 (segments ++ [segment]) = header at before start ⊢
  generalize segments.length + 1 = pages at few before
  have most : pages * (lzoMaxOutlen cluster.bytes + 8) ≤
      count * (lzoMaxOutlen cluster.bytes + 8) := Nat.mul_le_mul_right _ few
  have split : pages * (lzoMaxOutlen cluster.bytes + 8) =
      pages * (lzoMaxOutlen cluster.bytes + 7) + pages := Nat.mul_succ _ _
  rcases Nat.lt_or_ge pages 4 with less | more
  · -- few pages: the header is at the start of one of them
    obtain ⟨index, rfl⟩ := start
    have bound : cluster.bytes * index < cluster.bytes * (pages + 1) := by
      rw [lzoMaxOutlen] at before
      interval_cases pages <;> omega
    have early : index ≤ pages := Nat.le_of_lt_succ (Nat.lt_of_mul_lt_mul_left bound)
    have inside : cluster.bytes * index ≤ pages * (lzoMaxOutlen cluster.bytes + 8) := by
      rw [Nat.mul_comm]
      refine Nat.mul_le_mul early ?_
      rw [lzoMaxOutlen]
      omega
    omega
  · omega

end Room

/-- The pages are laid out, or given up where the stream is too long. -/
theorem lzoPages_spec
    {compress : PageCompressor} {count dataLength : Nat}
    (bounded : BoundedPages cluster.bytes compress) {pages : List Bytes} :
    ∀ {segments state}, (∀ page ∈ pages, page.length = cluster.bytes) →
      (∀ segment ∈ segments, segment.length ≤ lzoMaxOutlen cluster.bytes) →
      segments.length + pages.length ≤ count →
      LaidOut cluster (lzoRoom cluster.bytes count) segments state →
        (∀ failure, lzoPages compress cluster.bytes dataLength pages state =
            .error failure →
          ∃ page ∈ pages, ∃ ret, compress page = .error ret ∧
            failure = .codec "lzo1x_1_compress" ret) ∧
        ∀ final, lzoPages compress cluster.bytes dataLength pages state =
            .ok (some final) →
          ∃ outs, List.Forall₂ (fun page out => compress page = .ok out) pages outs ∧
            (∀ out ∈ outs, out.length ≤ lzoMaxOutlen cluster.bytes) ∧
            LaidOut cluster (lzoRoom cluster.bytes count) (segments ++ outs) final := by
  induction pages with
  | nil =>
    intro segments state _ _ _ laid
    refine ⟨(fun _ failed => by cases failed), fun final ran => ?_⟩
    obtain rfl := Option.some.inj (Except.ok.inj ran)
    exact ⟨[], List.Forall₂.nil, fun out member => absurd member List.not_mem_nil,
      by rwa [List.append_nil]⟩
  | cons page rest ih =>
    intro segments state sizes short few laid
    rw [List.length_cons] at few
    cases compressed : compress page with
    | error ret =>
      have failed : lzoPages compress cluster.bytes dataLength (page :: rest) state =
          .error (.codec "lzo1x_1_compress" ret) := by
        rw [lzoPages, lzoPage, compressed]
        rfl
      rw [failed]
      exact ⟨(fun failure same =>
        ⟨page, List.mem_cons_self, ret, compressed, (Except.error.inj same).symm⟩),
          (fun final same => by cases same)⟩
    | ok segment =>
      have shorter : ∀ other ∈ segments ++ [segment],
          other.length ≤ lzoMaxOutlen cluster.bytes := by
        intro other member
        rcases List.mem_append.mp member with early | last
        · exact short other early
        · rw [List.mem_singleton.mp last]
          exact bounded page segment (sizes page List.mem_cons_self) compressed
      obtain ⟨next, nextLaid, ran⟩ :=
        @lzoPage_eq cluster _ compress dataLength segments state page segment laid compressed
          (segment_fits (by omega) shorter) (padding_fits (by omega) shorter)
      rw [lzoPages, ran]
      by_cases long : next.outSize ≥ dataLength
      · rw [if_pos long]
        exact ⟨(fun _ same => by cases same), (fun final same => by cases same)⟩
      · rw [if_neg long]
        obtain ⟨failures, finals⟩ := ih
          (fun other member => sizes other (List.mem_cons_of_mem _ member)) shorter
          (by rw [List.length_append, List.length_singleton]; omega) nextLaid
        refine ⟨fun failure failed => ?_, fun final done => ?_⟩
        · obtain ⟨other, member, ret, broken, same⟩ := failures failure failed
          exact ⟨other, List.mem_cons_of_mem _ member, ret, broken, same⟩
        · obtain ⟨outs, outputs, outShort, finalLaid⟩ := finals final done
          refine ⟨segment :: outs, List.Forall₂.cons compressed outputs,
            List.forall_mem_cons.mpr ⟨shorter segment (by simp), outShort⟩, ?_⟩
          rwa [List.append_assoc] at finalLaid

/-- The loop gets to its end where the stream stays shorter than the data. -/
theorem lzoPages_ends
    {compress : PageCompressor} {count dataLength : Nat}
    (bounded : BoundedPages cluster.bytes compress) {pages outs : List Bytes}
    (outputs : List.Forall₂ (fun page out => compress page = .ok out) pages outs) :
    ∀ {segments state}, (∀ page ∈ pages, page.length = cluster.bytes) →
      (∀ segment ∈ segments, segment.length ≤ lzoMaxOutlen cluster.bytes) →
      segments.length + pages.length ≤ count →
      LaidOut cluster (lzoRoom cluster.bytes count) segments state →
      (outs ≠ [] → headerAfter cluster.bytes 4 (segments ++ outs) < dataLength) →
        ∃ final, lzoPages compress cluster.bytes dataLength pages state =
          .ok (some final) := by
  induction outputs with
  | nil => exact fun _ _ _ _ _ => ⟨_, rfl⟩
  | @cons page segment rest others compressed _ ih =>
    intro segments state sizes short few laid saves
    rw [List.length_cons] at few
    have shorter : ∀ other ∈ segments ++ [segment],
        other.length ≤ lzoMaxOutlen cluster.bytes := by
      intro other member
      rcases List.mem_append.mp member with early | last
      · exact short other early
      · rw [List.mem_singleton.mp last]
        exact bounded page segment (sizes page List.mem_cons_self) compressed
    obtain ⟨next, nextLaid, ran⟩ :=
      @lzoPage_eq cluster _ compress dataLength segments state page segment laid compressed
        (segment_fits (by omega) shorter) (padding_fits (by omega) shorter)
    have whole : segments ++ segment :: others = (segments ++ [segment]) ++ others := by simp
    have saves := saves (List.cons_ne_nil segment others)
    rw [whole] at saves
    have before : headerAfter cluster.bytes 4 (segments ++ [segment]) ≤
        headerAfter cluster.bytes 4 ((segments ++ [segment]) ++ others) := by
      rw [headerAfter_append 4 (segments ++ [segment])]
      exact le_headerAfter others _
    have room := before.trans_lt saves
    have below : ¬ next.outSize ≥ dataLength := by
      rw [nextLaid.size]
      exact Nat.not_le_of_lt ((Nat.mod_le _ _).trans_lt room)
    rw [lzoPages, ran, if_neg below]
    exact ih (fun other member => sizes other (List.mem_cons_of_mem _ member)) shorter
      (by rw [List.length_append, List.length_singleton]; omega) nextLaid (fun _ => saves)

theorem length_of_mem_pagesOf
    {clusterSize : Nat} {data page : Bytes} (member : page ∈ pagesOf clusterSize data) :
    page.length = clusterSize := by
  obtain ⟨index, inside, rfl⟩ := List.mem_map.mp member
  have early := List.mem_range.mp inside
  have whole := Nat.mul_le_of_le_div clusterSize (index + 1) data.length early
  rw [Nat.succ_mul] at whole
  exact length_slice whole

theorem length_pagesOf (clusterSize : Nat) (data : Bytes) :
    (pagesOf clusterSize data).length = data.length / clusterSize := by
  rw [pagesOf, List.length_map, List.length_range]

/-- The buffer that is returned. -/
theorem lzoBuffer_spec
    {count : Nat} {outs : List Bytes} {final : LzoState}
    (laid : LaidOut cluster (lzoRoom cluster.bytes count) outs final)
    (few : outs.length ≤ count)
    (short : ∀ out ∈ outs, out.length ≤ lzoMaxOutlen cluster.bytes)
    {dataLength : Nat} {buffer : Bytes}
    (made : lzoFinish cluster.bytes dataLength final = some buffer) :
    ¬ headerAfter cluster.bytes 4 outs % 2 ^ 32 > wordSub dataLength cluster.bytes ∧
      buffer.length =
        sectorAlign (headerAfter cluster.bytes 4 outs % 2 ^ 32) cluster.bytes ∧
      (headerAfter cluster.bytes 4 outs < 2 ^ 32 →
        unle (slice buffer 0 4) = headerAfter cluster.bytes 4 outs ∧
          HoldsSegments cluster.bytes buffer 4 outs) := by
  obtain ⟨length, size, -, total, holds⟩ := laid
  have upper := cluster.bytes_le
  have sizeSmall : final.outSize < 2 ^ 32 := by
    rw [size]
    exact Nat.mod_lt _ (by decide)
  rw [reservedArea] at upper
  have rounded : clearBits 64 (final.outSize + cluster.bytes - 1) cluster.bytes =
      sectorAlign final.outSize cluster.bytes :=
    clearBits_roundUp cluster (by decide) (by omega)
  have cut : (resize final.outbuf final.outSize).length = final.outSize := length_resize _ _
  rw [lzoFinish, cut, rounded] at made
  split_ifs at made with long
  have above := le_sectorAlign cluster.bytes_pos final.outSize
  obtain rfl := Option.some.inj made
  refine ⟨by rwa [← size], by rw [length_resize, size], fun small => ?_⟩
  have sizeEq : final.outSize = headerAfter cluster.bytes 4 outs := by
    rw [size, Nat.mod_eq_of_lt small]
  have room : headerAfter cluster.bytes 4 outs ≤ final.outbuf.length := by
    have after := @headerAfter_le cluster.bytes _ outs short
    have most : outs.length * (lzoMaxOutlen cluster.bytes + 7) ≤
        count * (lzoMaxOutlen cluster.bytes + 8) := Nat.mul_le_mul few (Nat.le_succ _)
    rw [length, lzoRoom_eq]
    exact after.trans (Nat.add_le_add_left most 4)
  have first : 4 ≤ headerAfter cluster.bytes 4 outs := le_headerAfter outs 4
  have agree : ∀ offset count, offset + count ≤ headerAfter cluster.bytes 4 outs →
      slice (resize (resize final.outbuf final.outSize)
        (sectorAlign final.outSize cluster.bytes)) offset count =
          slice final.outbuf offset count := by
    intro offset count inside
    rw [slice_resize (by omega) (by rw [length_resize]; omega),
      slice_resize (by omega) (by omega)]
  refine ⟨?_, holdsSegments_congr agree le_rfl holds⟩
  rw [agree 0 4 (by omega), total, unle_le_of_lt sizeSmall, sizeEq]

/-- The pages determine what they are compressed to. -/
theorem outputs_unique
    {compress : PageCompressor} {pages outs others : List Bytes}
    (left : List.Forall₂ (fun page out => compress page = .ok out) pages outs)
    (right : List.Forall₂ (fun page out => compress page = .ok out) pages others) :
    outs = others := by
  refine List.right_unique_forall₂' ?_ left right
  intro page out other first second
  exact Except.ok.inj (first.symm.trans second)

section Whole

variable {compress : PageCompressor} (bounded : BoundedPages cluster.bytes compress)
variable {memory data : Bytes}
variable (size : memory.length = lzoRoom cluster.bytes (data.length / cluster.bytes))

include size in
theorem lzoCompress_eq :
    lzoCompress compress memory data cluster.bytes =
      (lzoPages compress cluster.bytes data.length (pagesOf cluster.bytes data)
        ⟨patch memory 0 (le 4 4), 4, 8⟩).bind fun final =>
          if data.length / cluster.bytes ≥ 2 ^ 32 ∧ final.isSome then .error .overrun
          else .ok (final.bind (lzoFinish cluster.bytes data.length)) := by
  have front : 0 + (le 4 4).length ≤ memory.length := by
    rw [length_le, size, lzoRoom_eq]
    omega
  rw [lzoCompress, lzoWrite_eq front]
  rfl

include size in
/-- What the loop starts with. -/
theorem laidOut_start :
    LaidOut cluster (lzoRoom cluster.bytes (data.length / cluster.bytes)) []
      ⟨patch memory 0 (le 4 4), 4, 8⟩ := by
  have front : 0 + (le 4 4).length ≤ memory.length := by
    rw [length_le, size, lzoRoom_eq]
    omega
  have written := slice_patch_self front
  rw [length_le] at written
  exact ⟨(length_patch front).trans size, rfl, rfl, written, trivial⟩

include bounded size in
/--
No write goes past the buffer, and what is returned is the stream of the compressed
pages, rounded up, as long as its length has 32 bits.
-/
theorem lzoCompress_spec :
    (∀ failure, lzoCompress compress memory data cluster.bytes = .error failure →
        (∃ page ∈ pagesOf cluster.bytes data, ∃ ret, compress page = .error ret ∧
          failure = .codec "lzo1x_1_compress" ret) ∨
        2 ^ 32 ≤ data.length / cluster.bytes) ∧
      ∀ buffer, lzoCompress compress memory data cluster.bytes = .ok (some buffer) →
        ∃ outs,
          List.Forall₂ (fun page out => compress page = .ok out)
            (pagesOf cluster.bytes data) outs ∧
          (∀ out ∈ outs, out.length ≤ lzoMaxOutlen cluster.bytes) ∧
          ¬ headerAfter cluster.bytes 4 outs % 2 ^ 32 >
            wordSub data.length cluster.bytes ∧
          buffer.length =
            sectorAlign (headerAfter cluster.bytes 4 outs % 2 ^ 32) cluster.bytes ∧
          (headerAfter cluster.bytes 4 outs < 2 ^ 32 →
            unle (slice buffer 0 4) = headerAfter cluster.bytes 4 outs ∧
              HoldsSegments cluster.bytes buffer 4 outs) := by
  obtain ⟨failures, finals⟩ :=
    @lzoPages_spec cluster compress (data.length / cluster.bytes) data.length bounded
      (pagesOf cluster.bytes data) [] _ (fun page => length_of_mem_pagesOf)
      (fun segment member => absurd member List.not_mem_nil)
      (by rw [length_pagesOf, List.length_nil, Nat.zero_add]) (laidOut_start size)
  rw [lzoCompress_eq size]
  cases loop : lzoPages compress cluster.bytes data.length (pagesOf cluster.bytes data)
      ⟨patch memory 0 (le 4 4), 4, 8⟩ with
  | error failure =>
    refine ⟨fun other same => Or.inl ?_, (fun buffer same => by cases same)⟩
    rw [← Except.error.inj same]
    exact failures failure loop
  | ok final =>
    rw [Except.bind]
    split_ifs with many
    · exact ⟨fun _ _ => Or.inr many.1, (fun buffer same => by cases same)⟩
    · refine ⟨(fun _ same => by cases same), fun buffer made => ?_⟩
      obtain ⟨state, rfl, kept⟩ := Option.bind_eq_some_iff.mp (Except.ok.inj made)
      obtain ⟨outs, outputs, short, laid⟩ := finals state loop
      rw [List.nil_append] at laid
      refine ⟨outs, outputs, short, lzoBuffer_spec laid ?_ short kept⟩
      rw [← outputs.length_eq, length_pagesOf]

include bounded size in
/-- A buffer is returned where the stream saves a cluster. -/
theorem lzoCompress_returns
    {outs : List Bytes}
    (outputs : List.Forall₂ (fun page out => compress page = .ok out)
      (pagesOf cluster.bytes data) outs)
    (few : data.length / cluster.bytes < 2 ^ 32)
    (small : headerAfter cluster.bytes 4 outs < 2 ^ 32)
    (below : outs ≠ [] → headerAfter cluster.bytes 4 outs < data.length)
    (saves : ¬ headerAfter cluster.bytes 4 outs > wordSub data.length cluster.bytes) :
    ∃ buffer, lzoCompress compress memory data cluster.bytes = .ok (some buffer) := by
  have count : ([] : List Bytes).length + (pagesOf cluster.bytes data).length ≤
      data.length / cluster.bytes := by
    rw [length_pagesOf, List.length_nil, Nat.zero_add]
  have none : ∀ segment ∈ ([] : List Bytes), segment.length ≤ lzoMaxOutlen cluster.bytes :=
    fun segment member => absurd member List.not_mem_nil
  obtain ⟨final, loop⟩ :=
    @lzoPages_ends cluster compress (data.length / cluster.bytes) data.length bounded
      _ outs outputs [] _ (fun page => length_of_mem_pagesOf) none count
      (laidOut_start size) below
  obtain ⟨-, finals⟩ :=
    @lzoPages_spec cluster compress (data.length / cluster.bytes) data.length bounded
      (pagesOf cluster.bytes data) [] _ (fun page => length_of_mem_pagesOf) none count
      (laidOut_start size)
  obtain ⟨others, outputs', -, laid⟩ := finals final loop
  have same : others = outs := outputs_unique outputs' outputs
  rw [List.nil_append, same] at laid
  have cut : (resize final.outbuf final.outSize).length =
      headerAfter cluster.bytes 4 outs := by
    rw [length_resize, laid.size, Nat.mod_eq_of_lt small]
  rw [lzoCompress_eq size, loop, Except.bind,
    if_neg (fun many => Nat.not_le_of_lt few many.1), Option.bind_some, lzoFinish, cut,
    if_neg saves]
  exact ⟨_, rfl⟩

end Whole

end Loop

end Ntfs2Btrfs
