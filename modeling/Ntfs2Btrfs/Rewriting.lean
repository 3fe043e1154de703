import Ntfs2Btrfs.FileExtents
import Ntfs2Btrfs.Relocation

/-!
# Rewriting a file

`add_inode` writes the data of a file anew when it has the data and no runs: a
file of which NTFS holds the data in its record, or compressed.  The data is
padded to sectors and stored in extents from `allocate_data`, compressed where
that is asked for and saves a cluster.  Every extent gets an `EXTENT_DATA` item,
in bytes, and a run, in clusters.
-/

namespace Ntfs2Btrfs

open ByteStore

/-! ## The code -/

/-- `max_inline`. -/
def maxInline : Nat := 2048

/-- `max_extent_size`. -/
def maxExtentSize : Nat := 0x8000000

/-- `max_comp_extent_size`. -/
def maxCompExtentSize : Nat := 0x20000

/-- `BTRFS_INODE_NOCOMPRESS`. -/
def inodeNocompress : Nat := 1 <<< 3

/-- `BTRFS_INODE_COMPRESS`. -/
def inodeCompress : Nat := 1 <<< 11

/-- What rewriting a file throws; a codec names the function that failed and its result. -/
inductive RewriteError where
  | convert (error : ConvertError)
  | codec (function : String) (returned : Int)
  /-- A write outside of a buffer. -/
  | overrun
deriving DecidableEq, Repr

/--
A compression of the data of a piece, or none where it does not save enough.  What
it makes of a piece fills clusters.
-/
structure Codec where
  /-- The `btrfs_compression_type`. -/
  type : Nat
  compress : Nat → Bytes → Except RewriteError (Option Bytes)
  fills : ∀ (cluster : ClusterSize) (data stored : Bytes),
    compress cluster.bytes data = .ok (some stored) →
      cluster.bytes ∣ stored.length ∧ 0 < stored.length

/-- The data of a file, padded to sectors and with zeros after the valid data. -/
def paddedData (inlineData : Bytes) (vdl : Nat) : Bytes :=
  let padding := sectorAlign inlineData.length sectorSize - inlineData.length
  let padded := inlineData ++ List.replicate padding 0
  if vdl < padded.length then padded.take vdl ++ List.replicate (padded.length - vdl) 0
  else padded

/--
The next extent of a file: how much of the data it holds, the bytes to store,
how they are compressed, the inode flags to add, and the codec for the rest.
-/
structure FilePiece where
  length : Nat
  stored : Bytes
  compression : Nat
  flags : Nat
  codec : Option Codec
  positive : 0 < length

section Pieces

variable (data : Bytes) (nonempty : data ≠ [])

/-- A piece that is stored as it is. -/
def plainPiece (limit : Nat) (limitPositive : 0 < limit) (flags : Nat)
    (codec : Option Codec) : FilePiece where
  length := min limit data.length
  stored := data.take (min limit data.length)
  compression := compressionNone
  flags := flags
  codec := codec
  positive := lt_min limitPositive (List.length_pos_of_ne_nil nonempty)

/-- How the loop of `add_inode` stores the data from a position on. -/
def nextPiece (clusterSize pos : Nat) : Option Codec → Except RewriteError FilePiece
  | none => .ok (plainPiece data nonempty maxExtentSize (by decide) 0 none)
  | some codec =>
      if data.length ≤ clusterSize then
        .ok (plainPiece data nonempty maxExtentSize (by decide) 0 (some codec))
      else
        (codec.compress clusterSize (data.take (min maxCompExtentSize data.length))).map
          fun compdata =>
            match compdata with
            | some stored =>
                { length := min maxCompExtentSize data.length
                  stored := stored
                  compression := codec.type
                  flags := inodeCompress
                  codec := some codec
                  positive := lt_min (by decide) (List.length_pos_of_ne_nil nonempty) }
            | none =>
                -- if first part of file incompressible, give up on rest and add nocomp flag
                if pos = 0 then
                  plainPiece data nonempty maxExtentSize (by decide) inodeNocompress none
                else plainPiece data nonempty maxCompExtentSize (by decide) 0 (some codec)

end Pieces

/-- Insert a run before the first run that starts at its end or later. -/
def insertExtent (run : DataAlloc) : List DataAlloc → List DataAlloc
  | [] => [run]
  | head :: rest =>
      if head.offset ≥ run.stop then run :: head :: rest
      else head :: insertExtent run rest

/-- An `EXTENT_DATA` item of a rewritten file, with the run that was inserted for it. -/
structure StoredExtent where
  item : FileExtentItem
  run : DataAlloc
deriving DecidableEq, Repr

/--
What rewriting a file changes: the state of the conversion, the items of the
subvolume, and the size and the flags of the inode.  The extents that were
stored are listed beside it.
-/
structure Rewriting where
  conversion : Conversion
  items : ItemMap
  nbytes : Nat
  flags : Nat
  extents : List StoredExtent

/-- The item and the run for a piece at an address. -/
def storedExtent (volume : Volume) (inode pos : Nat) (piece : FilePiece) (address : Nat) :
    StoredExtent where
  item :=
    { generation := 1
      ramBytes := piece.length
      compression := piece.compression
      encryption := 0
      otherEncoding := 0
      type := extentReg
      diskBytenr := address
      diskNumBytes := piece.stored.length
      offset := 0
      numBytes := piece.length }
  run :=
    { offset := (address - chunkVirtOffset) / volume.cluster.bytes
      length := piece.stored.length / volume.cluster.bytes
      inode := inode
      fileOffset := pos / volume.cluster.bytes
      notInImg := true }

/-- Store a piece of a file. -/
def storePiece (volume : Volume) (inode pos : Nat) (piece : FilePiece) (state : Rewriting) :
    Except RewriteError Rewriting :=
  match allocateData piece.stored.length true state.conversion.allocator with
  | (.error error, _) => .error (.convert error)
  | (.ok address, allocator) =>
      let extent := storedExtent volume inode pos piece address
      let chunk := (address - chunkVirtOffset) / dataChunkSize
      match addItem state.items inode BtrfsKeyType.extentData pos extent.item.bytes with
      | .error error => .error (.convert error)
      | .ok items =>
          .ok
            { conversion :=
                { state.conversion with
                  allocator := allocator
                  device :=
                    Store.write state.conversion.device (address - chunkVirtOffset)
                      piece.stored
                  runs :=
                    state.conversion.runs.assign chunk
                      (insertExtent extent.run (state.conversion.runs.list chunk)) }
              items := items
              nbytes := state.nbytes + piece.length
              flags := state.flags ||| piece.flags
              extents := state.extents ++ [extent] }

/-- The loop over the data of a file from a position on. -/
def rewriteLoop (volume : Volume) (inode : Nat) (codec : Option Codec) (pos : Nat)
    (data : Bytes) (state : Rewriting) : Except RewriteError Rewriting :=
  if nonempty : data = [] then .ok state
  else
    match nextPiece data nonempty volume.cluster.bytes pos codec with
    | .error error => .error error
    | .ok piece =>
        match storePiece volume inode pos piece state with
        | .error error => .error error
        | .ok next =>
            rewriteLoop volume inode piece.codec (pos + piece.length)
              (data.drop piece.length) next
termination_by data.length
decreasing_by
  have positive := List.length_pos_of_ne_nil nonempty
  have shorter := piece.positive
  rw [List.length_drop]
  omega

/-- A file of which `add_inode` has the data, too long to be stored inline. -/
structure RewrittenFile where
  inode : Nat
  inlineData : Bytes
  vdl : Nat
  /-- `opt_compression`, with no codec for `btrfs_compression_type::none`. -/
  compression : Option Codec
  long : maxInline < inlineData.length

/-- The branch of `add_inode` that rewrites the data of a file. -/
def rewriteFile (volume : Volume) (file : RewrittenFile) (conversion : Conversion)
    (items : ItemMap) (flags : Nat) : Except RewriteError Rewriting :=
  rewriteLoop volume file.inode file.compression 0
    (paddedData file.inlineData file.vdl)
    { conversion := conversion
      items := items
      nbytes := 0
      flags := flags
      extents := [] }

/-! ## Which files fill clusters -/

/-- The codec does not compress the part of the data at an offset. -/
def Codec.Refuses (codec : Codec) (clusterSize : Nat) (data : Bytes) (offset : Nat) : Prop :=
  codec.compress clusterSize (slice data offset maxCompExtentSize) = .ok none

instance decidableRefuses (codec : Codec) (clusterSize : Nat) (data : Bytes) (offset : Nat) :
    Decidable (codec.Refuses clusterSize data offset) :=
  inferInstanceAs (Decidable (_ = _))

/--
Every part that is not compressed fills clusters: a part that the codec refuses,
and what is left when no more than a cluster is left.
-/
def Codec.FillsFrom (codec : Codec) (clusterSize : Nat) (data : Bytes) : Prop :=
  ∀ offset, maxCompExtentSize ∣ offset → offset < data.length →
    (offset + clusterSize < data.length → codec.Refuses clusterSize data offset →
      clusterSize ∣ min maxCompExtentSize (data.length - offset)) ∧
    (data.length ≤ offset + clusterSize →
      (offset = 0 ∨ offset + clusterSize < data.length + maxCompExtentSize) →
        data.length = offset + clusterSize)

/-- The data from a position of a file on is stored in extents that fill clusters. -/
def FillsClusters (clusterSize pos : Nat) : Option Codec → Bytes → Prop
  | none, data => clusterSize ∣ data.length
  | some codec, data =>
      if pos = 0 ∧ clusterSize < data.length ∧ codec.Refuses clusterSize data 0 then
        clusterSize ∣ data.length
      else codec.FillsFrom clusterSize data

/-- The file is stored in extents that fill clusters. -/
def RewrittenFile.FillsClusters (file : RewrittenFile) (clusterSize : Nat) : Prop :=
  Ntfs2Btrfs.FillsClusters clusterSize 0 file.compression
    (paddedData file.inlineData file.vdl)

theorem fillsFrom_short
    {codec : Codec} {clusterSize : Nat} {data : Bytes} (nonempty : data ≠ [])
    (short : data.length ≤ clusterSize) :
    codec.FillsFrom clusterSize data ↔ clusterSize ∣ data.length := by
  have positive := List.length_pos_of_ne_nil nonempty
  constructor
  · intro fills
    have whole := (fills 0 (dvd_zero _) positive).2 (by omega) (Or.inl rfl)
    rw [Nat.zero_add] at whole
    rw [whole]
  · intro whole
    have equal : data.length = clusterSize :=
      le_antisymm short (Nat.le_of_dvd positive whole)
    intro offset aligned inside
    refine ⟨fun longer => by omega, fun _ visited => ?_⟩
    rcases visited with rfl | near
    · omega
    · obtain ⟨count, rfl⟩ := aligned
      cases count with
      | zero => omega
      | succ count =>
        rw [Nat.mul_succ] at near ⊢
        omega

theorem refuses_drop (codec : Codec) (clusterSize : Nat) (data : Bytes) (offset : Nat) :
    codec.Refuses clusterSize (data.drop maxCompExtentSize) offset ↔
      codec.Refuses clusterSize data (maxCompExtentSize + offset) := by
  rw [Codec.Refuses, Codec.Refuses, slice, slice, List.drop_drop]

/-- The first part, and the parts after it. -/
theorem fillsFrom_long
    {codec : Codec} {clusterSize : Nat} {data : Bytes} (long : clusterSize < data.length) :
    codec.FillsFrom clusterSize data ↔
      (codec.Refuses clusterSize data 0 → clusterSize ∣ min maxCompExtentSize data.length) ∧
        codec.FillsFrom clusterSize (data.drop maxCompExtentSize) := by
  constructor
  · intro fills
    refine ⟨fun refuses => ?_, fun offset aligned inside => ?_⟩
    · exact (fills 0 (dvd_zero _) (by omega)).1 (by omega) refuses
    · rw [List.length_drop] at inside ⊢
      obtain ⟨refused, last⟩ := fills (maxCompExtentSize + offset)
        ((dvd_refl _).add aligned) (by omega)
      refine ⟨fun longer refuses => ?_, fun shorter visited => ?_⟩
      · rw [Nat.sub_sub]
        exact refused (by omega) ((refuses_drop _ _ _ _).mp refuses)
      · have equal := last (by omega) (Or.inr (by omega))
        omega
  · rintro ⟨first, rest⟩ offset ⟨count, rfl⟩ inside
    cases count with
    | zero =>
      rw [Nat.mul_zero] at inside ⊢
      exact ⟨fun _ => first, fun shorter => by omega⟩
    | succ count =>
      rw [Nat.mul_succ, Nat.add_comm (maxCompExtentSize * count)] at inside ⊢
      have aligned : maxCompExtentSize ∣ maxCompExtentSize * count := dvd_mul_right _ _
      generalize maxCompExtentSize * count = offset at inside aligned ⊢
      obtain ⟨refused, last⟩ := rest offset aligned (by rw [List.length_drop]; omega)
      rw [List.length_drop] at refused last
      refine ⟨fun longer refuses => ?_, fun shorter visited => ?_⟩
      · rw [← Nat.sub_sub]
        exact refused (by omega) ((refuses_drop _ _ _ _).mpr refuses)
      · have equal := last (by omega) (by omega)
        omega

section Fills

variable {cluster : ClusterSize} {data : Bytes}

theorem fillsClusters_nil (pos : Nat) (codec : Option Codec) :
    FillsClusters cluster.bytes pos codec [] := by
  cases codec with
  | none => exact dvd_zero _
  | some codec =>
    rw [FillsClusters, if_neg (by simp)]
    exact fun offset _ inside => absurd inside (Nat.not_lt_zero _)

variable (nonempty : data ≠ [])

@[simp]
theorem length_plainPiece
    {limit : Nat} (limitPositive : 0 < limit) (flags : Nat) (codec : Option Codec) :
    (plainPiece data nonempty limit limitPositive flags codec).length =
      min limit data.length :=
  rfl

theorem length_plainPiece_stored
    {limit : Nat} (limitPositive : 0 < limit) (flags : Nat) (codec : Option Codec) :
    (plainPiece data nonempty limit limitPositive flags codec).stored.length =
      min limit data.length := by
  simp only [plainPiece, List.length_take]
  omega

/-- A piece that is as long as an extent can be, and the rest. -/
theorem plainPiece_fills (flags pos : Nat) :
    cluster.bytes ∣ data.length ↔
      cluster.bytes ∣
          (plainPiece data nonempty maxExtentSize (by decide) flags none).stored.length ∧
        FillsClusters cluster.bytes pos none (data.drop (min maxExtentSize data.length)) := by
  have limit : cluster.bytes ∣ maxExtentSize := cluster.bytes_dvd_dataChunkSize
  rw [length_plainPiece_stored, FillsClusters, List.length_drop]
  rcases le_total data.length maxExtentSize with short | long
  · rw [min_eq_right short, Nat.sub_self]
    exact (and_iff_left (dvd_zero _)).symm
  · rw [min_eq_left long, and_iff_right limit]
    exact (Nat.dvd_sub_iff_left long limit).symm

/-- Every choice of the next piece. -/
theorem nextPiece_cases
    {pos : Nat} {codec : Option Codec} {piece : FilePiece}
    (next : nextPiece data nonempty cluster.bytes pos codec = .ok piece) :
    (codec = none ∧
      piece = plainPiece data nonempty maxExtentSize (by decide) 0 none) ∨
    ∃ used, codec = some used ∧
      ((data.length ≤ cluster.bytes ∧
        piece = plainPiece data nonempty maxExtentSize (by decide) 0 (some used)) ∨
      (cluster.bytes < data.length ∧ ¬ used.Refuses cluster.bytes data 0 ∧
        piece.length = min maxCompExtentSize data.length ∧ piece.codec = some used ∧
        cluster.bytes ∣ piece.stored.length ∧ 0 < piece.stored.length) ∨
      (cluster.bytes < data.length ∧ used.Refuses cluster.bytes data 0 ∧
        ((pos = 0 ∧
          piece = plainPiece data nonempty maxExtentSize (by decide) inodeNocompress none) ∨
        (pos ≠ 0 ∧
          piece = plainPiece data nonempty maxCompExtentSize (by decide) 0 (some used))))) := by
  cases codec with
  | none =>
    rw [nextPiece] at next
    exact Or.inl ⟨rfl, (Except.ok.inj next).symm⟩
  | some used =>
    refine Or.inr ⟨used, rfl, ?_⟩
    rw [nextPiece] at next
    by_cases short : data.length ≤ cluster.bytes
    · rw [if_pos short] at next
      exact Or.inl ⟨short, (Except.ok.inj next).symm⟩
    · have long := Nat.lt_of_not_le short
      have first : slice data 0 maxCompExtentSize =
          data.take (min maxCompExtentSize data.length) := by
        rw [slice, List.drop_zero, ← List.take_eq_take_min]
      rw [if_neg short, ← first] at next
      cases compressed : used.compress cluster.bytes (slice data 0 maxCompExtentSize) with
      | error failure =>
        rw [compressed] at next
        cases next
      | ok outcome =>
        rw [compressed] at next
        have made := Except.ok.inj next
        cases outcome with
        | some stored =>
          have accepted : ¬ used.Refuses cluster.bytes data 0 := by
            rw [Codec.Refuses, compressed]
            intro same
            cases Except.ok.inj same
          rw [← made]
          exact Or.inr (Or.inl ⟨long, accepted, rfl, rfl, used.fills cluster _ _ compressed⟩)
        | none =>
          refine Or.inr (Or.inr ⟨long, compressed, ?_⟩)
          by_cases start : pos = 0
          · simp only [if_pos start] at made
            exact Or.inl ⟨start, made.symm⟩
          · simp only [if_neg start] at made
            exact Or.inr ⟨start, made.symm⟩

/-- The pieces of a file, one by one. -/
theorem nextPiece_fills
    {pos : Nat} {codec : Option Codec} {piece : FilePiece}
    (next : nextPiece data nonempty cluster.bytes pos codec = .ok piece) :
    FillsClusters cluster.bytes pos codec data ↔
      cluster.bytes ∣ piece.stored.length ∧
        FillsClusters cluster.bytes (pos + piece.length) piece.codec
          (data.drop piece.length) := by
  have positive := List.length_pos_of_ne_nil nonempty
  have later : pos + min maxCompExtentSize data.length ≠ 0 := by
    have limit : 0 < maxCompExtentSize := by decide
    omega
  have dropped : data.drop (min maxCompExtentSize data.length) =
      data.drop maxCompExtentSize := by
    rcases le_total data.length maxCompExtentSize with inside | beyond
    · rw [min_eq_right inside, List.drop_length, List.drop_eq_nil_of_le inside]
    · rw [min_eq_left beyond]
  rcases nextPiece_cases nonempty next with ⟨rfl, rfl⟩ | ⟨codec, rfl, ⟨short, rfl⟩ |
      ⟨long, accepted, length, rest, whole, -⟩ | ⟨long, refused, ⟨start, rfl⟩ | ⟨start, rfl⟩⟩⟩
  · exact plainPiece_fills nonempty 0 _
  · have limit : data.length ≤ maxExtentSize :=
      short.trans (cluster.bytes_le.trans (by decide))
    have all : data.drop (min maxExtentSize data.length) = [] := by
      rw [min_eq_right limit, List.drop_length]
    rw [FillsClusters, if_neg (by omega), fillsFrom_short nonempty short,
      length_plainPiece_stored, min_eq_right limit]
    refine (and_iff_left ?_).symm
    simp only [plainPiece, all]
    exact fillsClusters_nil _ _
  · rw [length, rest, FillsClusters, if_neg fun both => accepted both.2.2, fillsFrom_long long,
      FillsClusters, if_neg fun both => later both.1, dropped, and_iff_right whole]
    exact and_iff_right fun refused => absurd refused accepted
  · rw [FillsClusters, if_pos ⟨start, long, refused⟩]
    exact plainPiece_fills nonempty _ _
  · rw [FillsClusters, if_neg fun both => start both.1, fillsFrom_long long,
      length_plainPiece_stored]
    simp only [plainPiece]
    rw [FillsClusters, if_neg fun both => later both.1, dropped]
    exact and_congr_left fun _ => ⟨fun fills => fills refused, fun fills _ => fills⟩

/-- No piece is stored in nothing. -/
theorem nextPiece_stored_pos
    {pos : Nat} {codec : Option Codec} {piece : FilePiece}
    (next : nextPiece data nonempty cluster.bytes pos codec = .ok piece) :
    0 < piece.stored.length := by
  have plain {limit : Nat} (limitPositive : 0 < limit) (flags : Nat) (rest : Option Codec) :
      0 < (plainPiece data nonempty limit limitPositive flags rest).stored.length := by
    rw [length_plainPiece_stored]
    exact lt_min limitPositive (List.length_pos_of_ne_nil nonempty)
  rcases nextPiece_cases nonempty next with ⟨-, rfl⟩ | ⟨codec, -, ⟨-, rfl⟩ |
      ⟨-, -, -, -, -, stored⟩ | ⟨-, -, ⟨-, rfl⟩ | ⟨-, rfl⟩⟩⟩
  · exact plain _ _ _
  · exact plain _ _ _
  · exact stored
  · exact plain _ _ _
  · exact plain _ _ _

end Fills

/-! ## The loop -/

/-- What storing a piece did. -/
theorem storePiece_cases
    {volume : Volume} {inode pos : Nat} {piece : FilePiece} {state next : Rewriting}
    (stored : storePiece volume inode pos piece state = .ok next) :
    ∃ address allocator device items,
      allocateData piece.stored.length true state.conversion.allocator =
        (.ok address, allocator) ∧
      next.conversion =
        { state.conversion with
          allocator := allocator
          device := device
          runs :=
            state.conversion.runs.assign ((address - chunkVirtOffset) / dataChunkSize)
              (insertExtent (storedExtent volume inode pos piece address).run
                (state.conversion.runs.list
                  ((address - chunkVirtOffset) / dataChunkSize))) } ∧
      next.items = items ∧
      next.extents = state.extents ++ [storedExtent volume inode pos piece address] := by
  rw [storePiece] at stored
  rcases allocated : allocateData piece.stored.length true state.conversion.allocator with
    ⟨failure | address, allocator⟩
  · rw [allocated] at stored
    cases stored
  · rw [allocated] at stored
    simp only at stored
    cases added : addItem state.items inode BtrfsKeyType.extentData pos
        (storedExtent volume inode pos piece address).item.bytes with
    | error failure =>
      rw [added] at stored
      cases stored
    | ok items =>
      rw [added] at stored
      rw [← Except.ok.inj stored]
      exact ⟨address, allocator, _, items, rfl, rfl, rfl, rfl⟩

/-- A piece is stored when there is room and the item is new. -/
theorem storePiece_ok
    {volume : Volume} {inode pos address : Nat} {piece : FilePiece} {state : Rewriting}
    {allocator : Allocator}
    (served : allocateData piece.stored.length true state.conversion.allocator =
      (.ok address, allocator))
    (fresh : btrfsKey inode BtrfsKeyType.extentData pos ∉ state.items.keys) :
    ∃ next, storePiece volume inode pos piece state = .ok next ∧
      next.extents = state.extents ++ [storedExtent volume inode pos piece address] := by
  rw [storePiece, served]
  simp only
  rw [addItem_ok_iff.mpr ⟨fresh, rfl⟩]
  exact ⟨_, rfl, rfl⟩

/-- Induction over the turns of the loop, from the last one. -/
theorem rewriteLoop_induction
    (volume : Volume) (inode : Nat) {final : Rewriting}
    (motive : Option Codec → Nat → Bytes → Rewriting → Prop)
    (stop : ∀ codec pos, motive codec pos [] final)
    (turn : ∀ codec pos data nonempty state piece next,
      nextPiece data nonempty volume.cluster.bytes pos codec = .ok piece →
      storePiece volume inode pos piece state = .ok next →
      motive piece.codec (pos + piece.length) (data.drop piece.length) next →
        motive codec pos data state)
    {codec : Option Codec} {pos : Nat} {data : Bytes} {state : Rewriting}
    (run : rewriteLoop volume inode codec pos data state = .ok final) :
    motive codec pos data state := by
  induction size : data.length using Nat.strong_induction_on generalizing codec pos data state with
  | _ size ih =>
    subst size
    rw [rewriteLoop] at run
    by_cases nonempty : data = []
    · rw [dif_pos nonempty] at run
      rw [nonempty, Except.ok.inj run]
      exact stop codec pos
    · rw [dif_neg nonempty] at run
      cases chosen : nextPiece data nonempty volume.cluster.bytes pos codec with
      | error failure =>
        rw [chosen] at run
        cases run
      | ok piece =>
        simp only [chosen] at run
        cases stored : storePiece volume inode pos piece state with
        | error failure =>
          rw [stored] at run
          cases run
        | ok next =>
          simp only [stored] at run
          refine turn codec pos data nonempty state piece next chosen stored
            (ih (data.drop piece.length).length ?_ run rfl)
          have positive := List.length_pos_of_ne_nil nonempty
          have shorter := piece.positive
          rw [List.length_drop]
          omega

/-- The extents of a file fill clusters exactly when the file does. -/
theorem rewriteLoop_fills_iff
    {volume : Volume} {inode : Nat} {codec : Option Codec} {pos : Nat} {data : Bytes}
    {state final : Rewriting}
    (run : rewriteLoop volume inode codec pos data state = .ok final) :
    ∃ new, final.extents = state.extents ++ new ∧
      ((∀ extent ∈ new, volume.cluster.bytes ∣ extent.item.diskNumBytes) ↔
        FillsClusters volume.cluster.bytes pos codec data) := by
  refine rewriteLoop_induction volume inode
    (fun codec pos data state => ∃ new, final.extents = state.extents ++ new ∧
      ((∀ extent ∈ new, volume.cluster.bytes ∣ extent.item.diskNumBytes) ↔
        FillsClusters volume.cluster.bytes pos codec data))
    (fun codec pos => ?_) (fun codec pos data nonempty state piece next chosen stored ih => ?_) run
  · refine ⟨[], (List.append_nil _).symm, iff_of_true ?_ (fillsClusters_nil pos codec)⟩
    exact fun extent member => absurd member List.not_mem_nil
  · obtain ⟨new, rest, fills⟩ := ih
    obtain ⟨address, allocator, device, items, -, -, -, extents⟩ := storePiece_cases stored
    refine ⟨storedExtent volume inode pos piece address :: new, ?_, ?_⟩
    · rw [rest, extents, List.append_assoc, List.singleton_append]
    · rw [List.forall_mem_cons, fills, nextPiece_fills nonempty chosen]
      exact Iff.rfl

theorem length_paddedData (inlineData : Bytes) (vdl : Nat) :
    (paddedData inlineData vdl).length = sectorAlign inlineData.length sectorSize := by
  have rounds := le_sectorAlign (show 0 < sectorSize by decide) inlineData.length
  simp only [paddedData]
  split_ifs with cut
  · rw [List.length_append, List.length_take, List.length_replicate, min_eq_left cut.le,
      Nat.add_sub_cancel' cut.le, List.length_append, List.length_replicate,
      Nat.add_sub_cancel' rounds]
  · rw [List.length_append, List.length_replicate, Nat.add_sub_cancel' rounds]

/-- A file that is not compressed and fits an extent is stored in one. -/
theorem rewriteFile_one_extent
    {volume : Volume} {file : RewrittenFile} {conversion : Conversion} {items : ItemMap}
    {flags address : Nat} {allocator : Allocator} (plain : file.compression = none)
    (short : sectorAlign file.inlineData.length sectorSize ≤ maxExtentSize)
    (served : allocateData (sectorAlign file.inlineData.length sectorSize) true
      conversion.allocator = (.ok address, allocator))
    (fresh : btrfsKey file.inode BtrfsKeyType.extentData 0 ∉ items.keys) :
    ∃ outcome, rewriteFile volume file conversion items flags = .ok outcome ∧
      ∃ extent ∈ outcome.extents,
        extent.item.diskNumBytes = sectorAlign file.inlineData.length sectorSize := by
  have length := length_paddedData file.inlineData file.vdl
  have rounds := le_sectorAlign (show 0 < sectorSize by decide) file.inlineData.length
  have nonempty : paddedData file.inlineData file.vdl ≠ [] := by
    have long := file.long
    rw [← List.length_pos_iff_ne_nil, length]
    omega
  have whole : min maxExtentSize (paddedData file.inlineData file.vdl).length =
      (paddedData file.inlineData file.vdl).length := by
    rw [length]
    exact min_eq_right short
  have stored := length_plainPiece_stored nonempty (show 0 < maxExtentSize by decide) 0 none
  rw [whole, length] at stored
  rw [← stored] at served
  obtain ⟨next, placed, extents⟩ :=
    @storePiece_ok volume file.inode 0 address _ ⟨conversion, items, 0, flags, []⟩ allocator
      served fresh
  have listed : storedExtent volume file.inode 0
      (plainPiece (paddedData file.inlineData file.vdl) nonempty maxExtentSize (by decide) 0
        none) address ∈ next.extents := by
    rw [extents]
    exact List.mem_append_right _ (List.mem_singleton_self _)
  refine ⟨next, ?_, _, listed, stored⟩
  rw [rewriteFile, rewriteLoop, dif_neg nonempty, plain]
  simp only [nextPiece, placed]
  rw [rewriteLoop, dif_pos]
  rw [length_plainPiece, whole, List.drop_length]

end Ntfs2Btrfs
