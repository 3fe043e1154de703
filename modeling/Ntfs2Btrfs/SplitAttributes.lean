import Ntfs2Btrfs.FileRead

/-!
# Attributes in pieces

NTFS splits an attribute over several records when its run list grows too long.
The readers take the first record that the walk gives them and stop, so they
read the whole attribute only if that record holds all of its data.

A record in turn is read right if its data is not sparse, all of it is valid or
none of it is, and no run but the last one ends beyond 2^32 bytes.
-/

namespace Ntfs2Btrfs

open ByteStore Extents Visits

/-! ## Runs that a request goes past -/

section Past

variable {geometry : Geometry} {offset length : Nat} {m : Mapping}

/-- One turn that copies nothing. -/
theorem copyMapping_of_empty
    (requested : m.Requested geometry.clusterSize offset length) {bound : Nat}
    (first : (if offset < m.vcn * geometry.clusterSize then
      (m.vcn * geometry.clusterSize - offset) % halfWordModulus else 0) = bound)
    (last : (if offset + length > (m.vcn + m.length) * geometry.clusterSize then
      min ((m.vcn + m.length) * geometry.clusterSize % halfWordModulus) length else length) =
        bound)
    (device : Store) (state : Bytes × List Extent) :
    copyMapping geometry device offset length state m = state := by
  obtain ⟨lower, upper⟩ := requested
  rw [copyMapping]
  simp only [first, last]
  exact (if_pos ⟨by omega, upper⟩).trans (if_pos trivial)

/-- One turn into a buffer of zeros, for a mapping that the request starts in and goes past. -/
theorem copyMapping_past
    (starts : m.vcn * geometry.clusterSize ≤ offset)
    (inside : offset < (m.vcn + m.length) * geometry.clusterSize)
    (past : (m.vcn + m.length) * geometry.clusterSize < offset + length) {index : Nat}
    (inBuffer : index < length) :
    (copyMapping geometry (fun _ => 0xff) offset length (List.replicate length 0, []) m).1.length =
        length ∧
      (copyMapping geometry (fun _ => 0xff) offset length
          (List.replicate length 0, []) m).1[index]? =
        some (if index < (m.vcn + m.length) * geometry.clusterSize % halfWordModulus then 0xff
          else 0) := by
  have requested : m.Requested geometry.clusterSize offset length := ⟨by omega, inside⟩
  have first : (if offset < m.vcn * geometry.clusterSize then
      (m.vcn * geometry.clusterSize - offset) % halfWordModulus else 0) = 0 :=
    if_neg (Nat.not_lt.mpr starts)
  obtain ⟨stop, isStop⟩ :
      ∃ stop, (m.vcn + m.length) * geometry.clusterSize % halfWordModulus = stop := ⟨_, rfl⟩
  have last : (if offset + length > (m.vcn + m.length) * geometry.clusterSize then
      min ((m.vcn + m.length) * geometry.clusterSize % halfWordModulus) length else length) =
        min stop length := by
    rw [if_pos past, isStop]
  rw [isStop]
  rcases Nat.eq_zero_or_pos (min stop length) with zero | positive
  · rw [copyMapping_of_empty requested first (last.trans zero)]
    refine ⟨List.length_replicate, ?_⟩
    rw [List.getElem?_replicate, if_pos inBuffer, if_neg (by omega)]
  · rw [copyMapping_of_bounds requested first last positive]
    have fits : 0 + (Store.read (fun _ => 0xff) (m.readStart geometry.clusterSize offset)
        (min stop length - 0)).length ≤ (List.replicate length (0 : UInt8)).length := by
      rw [Store.length_read, List.length_replicate]
      omega
    refine ⟨(length_patch fits).trans List.length_replicate, ?_⟩
    rw [getElem?_patch fits, Store.length_read, Store.getElem?_read, List.getElem?_replicate]
    by_cases before : index < stop
    · rw [if_pos ⟨by omega, by omega⟩, if_pos (by omega), if_pos before]
    · rw [if_neg (by omega), if_pos inBuffer, if_neg before]

/-- The byte of a request for just more than the rest of a mapping, on a device of ones. -/
theorem readBuffer_past
    {mappings : List Mapping} (tidy : TidyMappings mappings) (member : m ∈ mappings)
    (starts : m.vcn * geometry.clusterSize ≤ offset)
    (inside : offset < (m.vcn + m.length) * geometry.clusterSize)
    (past : offset + length = (m.vcn + m.length) * geometry.clusterSize + 1)
    (short : length < halfWordModulus) {index : Nat} (inBuffer : index < length)
    (behind : ∀ next ∈ mappings, m.vcn + m.length ≤ next.vcn →
      offset + index < next.vcn * geometry.clusterSize) :
    (readBuffer geometry (fun _ => 0xff) offset length mappings).1[index]? =
      some (if index < (m.vcn + m.length) * geometry.clusterSize % halfWordModulus then 0xff
        else 0) := by
  have clusters := geometry.clusterSize_pos
  obtain ⟨before, after, rfl⟩ := List.append_of_mem member
  obtain ⟨-, tail, apart⟩ := (tidyMappings_append_iff _ _).mp tidy
  obtain ⟨-, later, afterTidy⟩ := (tidyMappings_cons_iff _ _).mp tail
  have untouched : before.foldl (copyMapping geometry (fun _ => 0xff) offset length)
      (List.replicate length 0, []) = (List.replicate length 0, []) := by
    have ends : ∀ first ∈ before, (first.vcn + first.length) * geometry.clusterSize ≤ offset :=
      fun first inBefore =>
        (Nat.mul_le_mul_right _ (apart first inBefore m List.mem_cons_self)).trans starts
    clear apart tidy member behind
    induction before with
    | nil => rfl
    | cons first rest ih =>
      have ended := ends first List.mem_cons_self
      rw [List.foldl_cons, copyMapping_of_not_requested (by omega) short
        (fun requested => absurd requested.2 (by omega))]
      exact ih fun next inRest => ends next (List.mem_cons_of_mem _ inRest)
  obtain ⟨whole, byte⟩ := @copyMapping_past geometry offset length m starts inside (by omega)
    index inBuffer
  have narrow : ∀ next ∈ after, next.Narrow geometry.clusterSize offset length := by
    intro next inAfter requested ends
    have positive := afterTidy.positive next inAfter
    have start := Nat.mul_le_mul_right geometry.clusterSize (later next inAfter)
    have grows : (next.vcn + 1) * geometry.clusterSize ≤
        (next.vcn + next.length) * geometry.clusterSize :=
      Nat.mul_le_mul_right _ (by omega)
    rw [Nat.succ_mul] at grows
    omega
  obtain ⟨-, -, keeps, -⟩ := @foldl_copyMapping_spec geometry offset length after afterTidy
    (by omega) short narrow (fun _ => 0xff) _ whole
  rw [readBuffer, List.foldl_append, untouched, List.foldl_cons, keeps index fun next inAfter =>
    behind next (List.mem_append_right _ (List.mem_cons_of_mem _ inAfter)) (later next inAfter)]
  exact byte

end Past

/-! ## Attributes in pieces -/

/-- A record that holds a piece of an attribute. -/
structure Piece where
  listed : ListedRecord
  flags : Nat
  pairs : Nat
  runs : List NtfsRun
  fileSize : Nat
  validDataLength : Nat

/-- The number of clusters that a run list covers. -/
def clusterCount (runs : List NtfsRun) : Nat :=
  (runs.map NtfsRun.length).sum

/-- The piece is stored in its record. -/
structure Piece.Stored (piece : Piece) : Prop where
  form : piece.listed.header.form = 1
  flags : attributeFlags piece.listed.host piece.listed.att = .ok piece.flags
  pairs : mappingPairsOffset piece.listed.host piece.listed.att = .ok piece.pairs
  fileSize : fileSizeField piece.listed.host piece.listed.att = .ok piece.fileSize
  validDataLength :
    validDataLengthField piece.listed.host piece.listed.att = .ok piece.validDataLength
  runs : bytesAt piece.listed.host (piece.listed.att + piece.pairs)
    (encodeRuns 0 piece.runs).length = .ok (encodeRuns 0 piece.runs)

/-- The pieces follow each other, from a virtual cluster on. -/
def Contiguous : Nat → List Piece → Prop
  | _, [] => True
  | vcn, piece :: rest =>
      piece.listed.header.lowestVcn = vcn ∧ Contiguous (vcn + clusterCount piece.runs) rest

/--
The attribute of a type and a name is held by some of the records of a file.
The first of its pieces has its sizes.
-/
structure HeldIn (type : Nat) (name : Bytes) (visited : List ListedRecord) (first : Piece)
    (rest : List Piece) : Prop where
  stored : ∀ piece ∈ first :: rest, piece.Stored
  records : ((first :: rest).map Piece.listed).Perm
    (visited.filter (ListedRecord.IsOf type name))
  contiguous : Contiguous 0 (first :: rest)
  nonempty : rest ≠ [] → ∀ piece ∈ first :: rest, piece.runs ≠ []

/-- The run list of the whole attribute. -/
def wholeRuns (first : Piece) (rest : List Piece) : List NtfsRun :=
  (first :: rest).flatMap Piece.runs

theorem length_encodeRuns (previous : Nat) (runs : List NtfsRun) :
    runs.length < (encodeRuns previous runs).length := by
  induction runs generalizing previous with
  | nil => exact Nat.zero_lt_one
  | cons run rest ih =>
    have later := ih (run.lcn.getD previous)
    have pair : 0 < (encodePair run.length (run.distance previous)).length := by
      cases run.distance previous with
      | none => exact Nat.succ_pos _
      | some distance => exact Nat.succ_pos _
    rw [encodeRuns, List.length_append, List.length_cons]
    omega

namespace Piece

variable {piece : Piece}

/-- The fields of the record that the readers use. -/
def fields (piece : Piece) : NonresidentAttribute where
  lowestVcn := piece.listed.header.lowestVcn
  mappingPairs := piece.listed.att + piece.pairs
  fileSize := piece.fileSize
  validDataLength := piece.validDataLength

theorem Stored.nonresidentFields_eq (stored : piece.Stored)
    (found : AttributeAt piece.listed.host piece.listed.att piece.listed.header) :
    nonresidentFields piece.listed.host piece.listed.att = .ok piece.fields := by
  have form := stored.form
  rw [nonresidentFields, found.lowestVcn (by omega), ok_bind, stored.pairs, ok_bind,
    stored.fileSize, ok_bind, stored.validDataLength]
  rfl

/-- The run list is in the memory behind the record, and shorter than the record. -/
theorem Stored.read_eq (stored : piece.Stored) :
    (Store.ofBytes piece.listed.host).read piece.fields.mappingPairs
        (encodeRuns 0 piece.runs).length = encodeRuns 0 piece.runs ∧
      piece.runs.length < piece.listed.host.length + 1 := by
  have read := stored.runs
  have long := length_encodeRuns 0 piece.runs
  rw [bytesAt] at read
  split_ifs at read with inside
  refine ⟨?_, by omega⟩
  rw [Piece.fields, Store.read_ofBytes inside]
  exact Except.ok.inj read

/-- What `read_mappings` makes of the record. -/
theorem Stored.readMappings_eq (stored : piece.Stored)
    (found : AttributeAt piece.listed.host piece.listed.att piece.listed.header)
    (volume : NtfsVolume) :
    volume.readMappings piece.listed.host piece.listed.att [] =
      match readNonresidentMappings volume.undefinedShift (Store.ofBytes piece.listed.host)
          (piece.listed.host.length + 1) piece.fields [] volume.geometry.clusterSize
          piece.validDataLength with
      | (_, .running) => .error .running
      | (_, .failed error) => .error (.threw error)
      | (mappings, .finished) => .ok mappings := by
  rw [NtfsVolume.readMappings, stored.nonresidentFields_eq found]
  rfl

/-- What `read` makes of the record. -/
theorem Stored.readRecord_eq (stored : piece.Stored)
    (found : AttributeAt piece.listed.host piece.listed.att piece.listed.header)
    (volume : NtfsVolume) (offset length : Nat) :
    volume.readRecord piece.listed.host piece.listed.att offset length =
      if piece.flags &&& attributeFlagEncrypted ≠ 0 then .error (.threw .encryptedAttribute)
      else if piece.flags &&& attributeFlagCompressionMask ≠ 0 then
        .error (.threw .compressedAttribute)
      else
        match readNonresidentAttribute volume.undefinedShift volume.geometry volume.device
            (Store.ofBytes piece.listed.host) (piece.listed.host.length + 1) piece.fields
            offset length with
        | .running => .error .running
        | .threw error => .error (.threw error)
        | .returned buf _ => .ok buf := by
  rw [NtfsVolume.readRecord, stored.flags, ok_bind]
  split_ifs with encrypted compressed
  · rfl
  · rfl
  · rw [NtfsVolume.readAttribute, stored.nonresidentFields_eq found]
    rfl

end Piece

/-! ## Run lists in parts -/

theorem absoluteMappings_append (vcn : Nat) (front back : List NtfsRun) :
    absoluteMappings vcn (front ++ back) =
      absoluteMappings vcn front ++ absoluteMappings (vcn + clusterCount front) back := by
  induction front generalizing vcn with
  | nil => rfl
  | cons run rest ih =>
    rw [List.cons_append, absoluteMappings, ih, absoluteMappings, List.cons_append, clusterCount,
      clusterCount, List.map_cons, List.sum_cons, Nat.add_assoc]

theorem clipMappings_append (last : Nat) (front back : List Mapping) :
    clipMappings last (front ++ back) = clipMappings last front ++ clipMappings last back :=
  List.filterMap_append

theorem clusterCount_pos {runs : List NtfsRun} (nonempty : runs ≠ []) : 0 < clusterCount runs := by
  cases runs with
  | nil => exact absurd rfl nonempty
  | cons run rest =>
    have positive := run.positive
    rw [clusterCount, List.map_cons, List.sum_cons]
    omega

theorem clusterCount_append (front back : List NtfsRun) :
    clusterCount (front ++ back) = clusterCount front + clusterCount back := by
  rw [clusterCount, List.map_append, List.sum_append]
  rfl

/-- A part of a run list has all of the mappings if and only if it covers the clusters. -/
theorem clip_part_iff
    {last : Nat} {front back : List NtfsRun} (covering : last ≤ clusterCount (front ++ back)) :
    clipMappings last (absoluteMappings 0 front) =
        clipMappings last (absoluteMappings 0 (front ++ back)) ↔
      last ≤ clusterCount front := by
  rw [absoluteMappings_append, clipMappings_append, Nat.zero_add]
  constructor
  · intro same
    by_contra more
    rw [clusterCount_append] at covering
    cases back with
    | nil => exact more (by simpa [clusterCount] using covering)
    | cons run rest =>
      rw [clipMappings_absoluteMappings_cons (Nat.not_le.mp more)] at same
      have lengths := congrArg List.length same
      rw [List.length_append, List.length_cons] at lengths
      omega
  · intro enough
    rw [clipMappings_absoluteMappings_of_le enough, List.append_nil]

theorem attributeClusters_eq_zero_iff {geometry : Geometry} {size : Nat} :
    attributeClusters geometry size = 0 ↔ size = 0 := by
  constructor
  · intro zero
    have rounded := fileSize_le_clusters geometry size
    rw [zero] at rounded
    omega
  · rintro rfl
    simp [attributeClusters, maxCluster]

theorem attributeClusters_le_iff {geometry : Geometry} {size count : Nat} :
    attributeClusters geometry size ≤ count ↔ size ≤ count * geometry.clusterSize := by
  rw [attributeClusters, Geometry.clusterSize, geometry.clusterSize_eq, maxCluster_eq,
    ← Nat.lt_succ_iff, Nat.div_lt_iff_lt_mul (Nat.two_pow_pos _), Nat.succ_mul]
  have positive := Nat.two_pow_pos geometry.exponent
  omega

/-- Before the last cluster there is data. -/
theorem lt_of_lt_attributeClusters
    {geometry : Geometry} {size cluster : Nat} (before : cluster < attributeClusters geometry size) :
    cluster * geometry.clusterSize < size := by
  by_contra past
  have small := attributeClusters_le_iff.mpr (Nat.not_lt.mp past)
  omega

/-! ## The mappings -/

theorem Contiguous.le
    {vcn : Nat} {pieces : List Piece} (contiguous : Contiguous vcn pieces) :
    ∀ piece ∈ pieces, vcn ≤ piece.listed.header.lowestVcn := by
  induction pieces generalizing vcn with
  | nil => simp
  | cons head rest ih =>
    obtain ⟨start, later⟩ := contiguous
    refine List.forall_mem_cons.mpr ⟨start.ge, fun piece inRest => ?_⟩
    exact (Nat.le_add_right _ _).trans (ih later piece inRest)

section Pieces

variable {undefinedShift : Nat → BitVec 64} {geometry : Geometry} {access : FileAccess}
  {inode : Nat} {record : Bytes} {visited : List ListedRecord} {type : Nat} {name : Bytes}
  {first piece : Piece} {rest : List Piece}

theorem HeldIn.lowestVcn_pos
    (held : HeldIn type name visited first rest) (later : piece ∈ rest) :
    0 < piece.listed.header.lowestVcn ∧ piece.runs ≠ [] := by
  have several : rest ≠ [] := List.ne_nil_of_mem later
  have nonempty := held.nonempty several
  have positive := clusterCount_pos (nonempty first List.mem_cons_self)
  have above := held.contiguous.2.le piece later
  exact ⟨by omega, nonempty piece (List.mem_cons_of_mem _ later)⟩

/-- The first piece gives the mappings of its own runs. -/
theorem Piece.Stored.readMappings_first
    (stored : piece.Stored)
    (found : AttributeAt piece.listed.host piece.listed.att piece.listed.header)
    (lowest : piece.listed.header.lowestVcn = 0) (word : piece.validDataLength < 2 ^ 63)
    (device : Store) :
    NtfsVolume.readMappings ⟨undefinedShift, geometry, device⟩ piece.listed.host
        piece.listed.att [] =
      .ok (clipMappings (attributeClusters geometry piece.validDataLength)
        (absoluteMappings 0 piece.runs)) := by
  obtain ⟨inMemory, short⟩ := stored.read_eq
  have read := @readNonresidentMappings_of_runs undefinedShift geometry
    (Store.ofBytes piece.listed.host) piece.fields piece.runs (piece.listed.host.length + 1)
    lowest word inMemory short
  rw [stored.readMappings_eq found]
  simp only [Piece.fields] at read ⊢
  rw [read]

/-- A later piece gives nothing, or mappings from its own first cluster on. -/
theorem Piece.Stored.readMappings_later
    (stored : piece.Stored)
    (found : AttributeAt piece.listed.host piece.listed.att piece.listed.header)
    (nonempty : piece.runs ≠ []) {device : Store} {mappings : List Mapping}
    (read : NtfsVolume.readMappings ⟨undefinedShift, geometry, device⟩ piece.listed.host
      piece.listed.att [] = .ok mappings) :
    (piece.validDataLength = 0 ∧ mappings = []) ∨
      (piece.validDataLength ≠ 0 ∧
        ∃ m tail, mappings = m :: tail ∧ m.vcn = piece.listed.header.lowestVcn) := by
  obtain ⟨inMemory, short⟩ := stored.read_eq
  have appended := readNonresidentMappings_fst undefinedShift (Store.ofBytes piece.listed.host)
    (piece.listed.host.length + 1) piece.fields [] geometry.clusterSize piece.validDataLength
  have isResult : (readNonresidentMappings undefinedShift (Store.ofBytes piece.listed.host)
      (piece.listed.host.length + 1) piece.fields [] geometry.clusterSize
      piece.validDataLength).1 = mappings := by
    rw [stored.readMappings_eq found] at read
    simp only at read
    split at read
    · cases read
    · cases read
    · rename_i result outcome
      rw [outcome]
      exact Except.ok.inj read
  rw [isResult, List.nil_append] at appended
  have clusters : maxCluster geometry.clusterSize piece.validDataLength = 0 ↔
      piece.validDataLength = 0 := attributeClusters_eq_zero_iff
  by_cases zero : piece.validDataLength = 0
  · left
    rw [if_pos (clusters.mpr zero)] at appended
    exact ⟨zero, appended⟩
  · right
    rw [if_neg fun none => zero (clusters.mp none)] at appended
    obtain ⟨run, tail, runs_eq⟩ := List.exists_cons_of_ne_nil nonempty
    rw [runs_eq, encodeRuns] at inMemory
    obtain ⟨pairStored, -⟩ := Store.read_eq_append_iff.mp inMemory
    have pair := readPair_encodePair undefinedShift run.positive run.short
      (run.distance_small (by norm_num)) pairStored
    rw [pairsFrom, pair] at appended
    exact ⟨zero, _, _, appended, rfl⟩

/-- The record that is taken gives all mappings, or it does not. -/
theorem readMappings_whole_iff
    (held : HeldIn type name visited first rest) (member : piece ∈ first :: rest)
    (found : AttributeAt piece.listed.host piece.listed.att piece.listed.header)
    (covering : first.fileSize ≤ clusterCount (wholeRuns first rest) * geometry.clusterSize)
    (valid : first.validDataLength ≤ first.fileSize) (word : first.fileSize < 2 ^ 63)
    (device : Store) :
    NtfsVolume.readMappings ⟨undefinedShift, geometry, device⟩ piece.listed.host
        piece.listed.att [] =
      .ok (clipMappings (attributeClusters geometry first.validDataLength)
        (absoluteMappings 0 (wholeRuns first rest))) ↔
    (first.validDataLength = 0 → piece.validDataLength = 0) ∧
      (first.validDataLength ≠ 0 → piece = first ∧
        first.validDataLength ≤ clusterCount first.runs * geometry.clusterSize) := by
  have stored := held.stored piece member
  have whole : wholeRuns first rest = first.runs ++ rest.flatMap Piece.runs :=
    List.flatMap_cons
  have enough : attributeClusters geometry first.validDataLength ≤
      clusterCount (wholeRuns first rest) := attributeClusters_le_iff.mpr (by omega)
  rcases List.mem_cons.mp member with rfl | later
  · rw [stored.readMappings_first found held.contiguous.1 (by omega), Except.ok.injEq, whole,
      clip_part_iff (whole ▸ enough), attributeClusters_le_iff]
    constructor
    · exact fun inside => ⟨fun zero => zero, fun _ => ⟨rfl, inside⟩⟩
    · rintro ⟨-, covered⟩
      by_cases zero : piece.validDataLength = 0
      · omega
      · exact (covered zero).2
  · obtain ⟨lowest, nonempty⟩ := held.lowestVcn_pos later
    constructor
    · intro read
      have outcome := stored.readMappings_later found nonempty read
      by_cases zero : first.validDataLength = 0
      · rw [attributeClusters_eq_zero_iff.mpr zero,
          clipMappings_absoluteMappings_of_le le_rfl] at outcome
        refine ⟨fun _ => ?_, fun nonzero => absurd zero nonzero⟩
        rcases outcome with ⟨none, -⟩ | ⟨-, m, tail, empty, -⟩
        · exact none
        · cases empty
      · have positive : 0 < attributeClusters geometry first.validDataLength :=
          Nat.pos_of_ne_zero fun none => zero (attributeClusters_eq_zero_iff.mp none)
        obtain ⟨run, runs, runs_eq⟩ : ∃ run runs, wholeRuns first rest = run :: runs := by
          refine List.exists_cons_of_ne_nil fun none => ?_
          rw [none] at enough
          exact absurd enough (Nat.not_le.mpr positive)
        rw [runs_eq, clipMappings_absoluteMappings_cons positive] at outcome
        rcases outcome with ⟨-, empty⟩ | ⟨-, m, tail, equal, vcn⟩
        · cases empty
        · obtain ⟨rfl, -⟩ := List.cons.inj equal
          exact absurd vcn (by simp only; omega)
    · rintro ⟨zeros, nonzeros⟩
      by_cases zero : first.validDataLength = 0
      · rw [attributeClusters_eq_zero_iff.mpr zero, clipMappings_absoluteMappings_of_le le_rfl,
          stored.readMappings_eq found, readNonresidentMappings,
          if_pos (show maxCluster geometry.clusterSize piece.validDataLength = 0 from
            attributeClusters_eq_zero_iff.mpr (zeros zero))]
      · obtain ⟨rfl, -⟩ := nonzeros zero
        exact absurd held.contiguous.1 (by omega)

/-! ### The bytes -/

/-- The bytes of an attribute, with zeros behind the valid data. -/
def validBytes (device : Store) (clusterSize : Nat) (mappings : List Mapping)
    (valid offset length : Nat) : Bytes :=
  (List.range length).map fun index =>
    if offset + index < valid then attributeByte device clusterSize mappings (offset + index)
    else 0

theorem getElem?_validBytes
    (device : Store) (clusterSize : Nat) (mappings : List Mapping) (valid offset : Nat)
    {length index : Nat} (inside : index < length) :
    (validBytes device clusterSize mappings valid offset length)[index]? =
      some (if offset + index < valid then
        attributeByte device clusterSize mappings (offset + index) else 0) := by
  simp [validBytes, List.getElem?_range inside]

theorem length_validBytes
    (device : Store) (clusterSize : Nat) (mappings : List Mapping) (valid offset length : Nat) :
    (validBytes device clusterSize mappings valid offset length).length = length := by
  simp [validBytes]

/-- The record is neither encrypted nor compressed. -/
def Piece.Plain (piece : Piece) : Prop :=
  piece.flags &&& attributeFlagEncrypted = 0 ∧ piece.flags &&& attributeFlagCompressionMask = 0

/-- Every range inside the file is read right, whatever the device holds. -/
def ReadsRanges
    (undefinedShift : Nat → BitVec 64) (geometry : Geometry) (first piece : Piece)
    (rest : List Piece) : Prop :=
  ∀ (device : Store) (offset length : Nat), 0 < length → length < halfWordModulus →
    offset + length ≤ first.fileSize →
      NtfsVolume.readRecord ⟨undefinedShift, geometry, device⟩ piece.listed.host
          piece.listed.att offset length =
        .ok (validBytes device geometry.clusterSize (absoluteMappings 0 (wholeRuns first rest))
          first.validDataLength offset length)

theorem Piece.Stored.readRecord_of_plain
    (stored : piece.Stored)
    (found : AttributeAt piece.listed.host piece.listed.att piece.listed.header)
    (plain : piece.Plain) {volume : NtfsVolume} {offset length : Nat} {buf : Bytes}
    {reads : List Extent}
    (returned : readNonresidentAttribute volume.undefinedShift volume.geometry volume.device
      (Store.ofBytes piece.listed.host) (piece.listed.host.length + 1) piece.fields
      offset length = .returned buf reads) :
    volume.readRecord piece.listed.host piece.listed.att offset length = .ok buf := by
  rw [stored.readRecord_eq found, if_neg (not_not.mpr plain.1), if_neg (not_not.mpr plain.2),
    returned]

theorem Piece.Stored.plain_of_readRecord
    (stored : piece.Stored)
    (found : AttributeAt piece.listed.host piece.listed.att piece.listed.header)
    {volume : NtfsVolume} {offset length : Nat} {buf : Bytes}
    (read : volume.readRecord piece.listed.host piece.listed.att offset length = .ok buf) :
    piece.Plain := by
  rw [stored.readRecord_eq found] at read
  split_ifs at read with encrypted compressed
  exact ⟨not_not.mp encrypted, not_not.mp compressed⟩

/-- A record without valid data gives zeros up to its own size. -/
theorem readsRanges_empty_iff
    (stored : piece.Stored)
    (found : AttributeAt piece.listed.host piece.listed.att piece.listed.header)
    (invalid : first.validDataLength = 0) (pieceInvalid : piece.validDataLength = 0) :
    ReadsRanges undefinedShift geometry first piece rest ↔
      (first.fileSize ≠ 0 → piece.Plain) ∧ first.fileSize ≤ piece.fileSize := by
  have attribute_eq (device : Store) (offset length : Nat) :
      readNonresidentAttribute undefinedShift geometry device
        (Store.ofBytes piece.listed.host) (piece.listed.host.length + 1) piece.fields
        offset length =
      if offset ≥ piece.fileSize then .returned [] []
      else .returned (List.replicate (requestLength piece.fileSize offset length) 0) [] := by
    rw [readNonresidentAttribute, readNonresidentMappings,
      if_pos (show maxCluster geometry.clusterSize piece.fields.validDataLength = 0 from
        attributeClusters_eq_zero_iff.mpr pieceInvalid)]
    rfl
  have zeros (device : Store) (offset length : Nat) :
      validBytes device geometry.clusterSize (absoluteMappings 0 (wholeRuns first rest))
        first.validDataLength offset length = List.replicate length 0 := by
    simp [validBytes, invalid]
  constructor
  · intro reads
    have plain (nonzero : first.fileSize ≠ 0) : piece.Plain :=
      stored.plain_of_readRecord found
        (reads (fun _ => 0) 0 1 Nat.one_pos (by decide) (by omega))
    refine ⟨plain, ?_⟩
    by_contra larger
    have read := reads (fun _ => 0) piece.fileSize 1 Nat.one_pos (by decide) (by omega)
    rw [stored.readRecord_of_plain found (plain (by omega))
      ((attribute_eq _ _ _).trans (if_pos le_rfl)), zeros] at read
    cases read
  · rintro ⟨plain, size⟩ device offset length positive short inside
    rw [stored.readRecord_of_plain found (plain (by omega))
      ((attribute_eq _ _ _).trans (if_neg (by omega))), zeros,
      requestLength_of_inside positive (by omega)]

/-- The first piece reads its own runs. -/
theorem readRecord_first
    (stored : first.Stored)
    (found : AttributeAt first.listed.host first.listed.att first.listed.header)
    (lowest : first.listed.header.lowestVcn = 0) (word : first.validDataLength < 2 ^ 63)
    (plain : first.Plain) (device : Store) {offset length : Nat} (positive : 0 < length)
    (inside : offset + length ≤ first.fileSize) :
    NtfsVolume.readRecord ⟨undefinedShift, geometry, device⟩ first.listed.host first.listed.att
        offset length =
      .ok (readBuffer geometry device offset length
        (clipMappings (attributeClusters geometry first.validDataLength)
          (absoluteMappings 0 first.runs))).1 := by
  obtain ⟨inMemory, short⟩ := stored.read_eq
  have mappings := @readNonresidentMappings_of_runs undefinedShift geometry
    (Store.ofBytes first.listed.host) first.fields first.runs (first.listed.host.length + 1)
    lowest word inMemory short
  have length_eq : requestLength first.fileSize offset length = length :=
    requestLength_of_inside positive inside
  have returned : readNonresidentAttribute undefinedShift geometry device
      (Store.ofBytes first.listed.host) (first.listed.host.length + 1) first.fields
      offset length =
        .returned
          (readBuffer geometry device offset length
            (clipMappings (attributeClusters geometry first.validDataLength)
              (absoluteMappings 0 first.runs))).1
          (readBuffer geometry device offset length
            (clipMappings (attributeClusters geometry first.validDataLength)
              (absoluteMappings 0 first.runs))).2 := by
    rw [readNonresidentAttribute, mappings]
    simp only [Piece.fields, length_eq]
    exact if_neg (by omega)
  exact stored.readRecord_of_plain found plain returned

/-! ### The first piece -/

/-- The part of a mapping before the end of the valid data. -/
def Mapping.clipped (m : Mapping) (last : Nat) : Mapping :=
  { m with length := min m.length (last - m.vcn) }

/-- The run list of the first piece can be read right. -/
def Piece.Direct (geometry : Geometry) (first : Piece) : Prop :=
  ∀ m ∈ absoluteMappings 0 first.runs, m.vcn * geometry.clusterSize < first.fileSize →
    m.lcn ≠ 0 ∧
    ((m.vcn + m.length) * geometry.clusterSize < halfWordModulus ∨
      first.fileSize ≤ (m.vcn + m.length) * geometry.clusterSize)

section First

variable (found : AttributeAt first.listed.host first.listed.att first.listed.header)
  (held : HeldIn type name visited first rest)
  (valid : first.validDataLength ≤ first.fileSize) (word : first.fileSize < 2 ^ 63)

theorem mem_wholeRuns {m : Mapping} (member : m ∈ absoluteMappings 0 first.runs) :
    m ∈ absoluteMappings 0 (wholeRuns first rest) := by
  rw [wholeRuns, List.flatMap_cons, absoluteMappings_append]
  exact List.mem_append_left _ member

theorem attributeByte_whole
    {m : Mapping} (member : m ∈ absoluteMappings 0 first.runs) {position : Nat}
    (holds : m.HoldsByte geometry.clusterSize position) (device : Store) :
    attributeByte device geometry.clusterSize (absoluteMappings 0 (wholeRuns first rest))
        position =
      if m.lcn = 0 then 0 else m.deviceByte device geometry.clusterSize position :=
  attributeByte_eq geometry.clusterSize_pos (tidyMappings_absoluteMappings 0 _).1
    (mem_wholeRuns member) holds device

theorem holdsByte_of_clipped
    {m : Mapping} {last position : Nat}
    (holds : (m.clipped last).HoldsByte geometry.clusterSize position) :
    m.HoldsByte geometry.clusterSize position :=
  ⟨holds.1, lt_of_lt_of_le holds.2
    (Nat.mul_le_mul_right _ (Nat.add_le_add_left (Nat.min_le_left _ _) _))⟩

include found held valid word

theorem readBuffer_of_readsRanges
    (reads : ReadsRanges undefinedShift geometry first first rest) (device : Store)
    {offset length : Nat} (positive : 0 < length) (short : length < halfWordModulus)
    (inside : offset + length ≤ first.fileSize) :
    (readBuffer geometry device offset length
        (clipMappings (attributeClusters geometry first.validDataLength)
          (absoluteMappings 0 first.runs))).1 =
      validBytes device geometry.clusterSize (absoluteMappings 0 (wholeRuns first rest))
        first.validDataLength offset length := by
  have stored := held.stored first List.mem_cons_self
  have read := reads device offset length positive short inside
  rw [readRecord_first stored found held.contiguous.1 (by omega)
    (stored.plain_of_readRecord found read) device positive inside] at read
  exact Except.ok.inj read

/-- Every byte of a clipped mapping is valid, and not in a hole. -/
theorem valid_of_readsRanges
    (reads : ReadsRanges undefinedShift geometry first first rest) {m : Mapping}
    (member : m ∈ absoluteMappings 0 first.runs)
    (before : m.vcn < attributeClusters geometry first.validDataLength) {position : Nat}
    (inFile : position < first.fileSize)
    (holds : (m.clipped (attributeClusters geometry first.validDataLength)).HoldsByte
      geometry.clusterSize position) :
    position < first.validDataLength ∧ m.lcn ≠ 0 := by
  have read := readBuffer_of_readsRanges found held valid word reads (fun _ => 0xff) Nat.one_pos
    (by decide) (show position + 1 ≤ first.fileSize from inFile)
  have tidy := (tidyMappings_absoluteMappings 0 first.runs).1.clip
    (attributeClusters geometry first.validDataLength)
  have narrow : ∀ m ∈ clipMappings (attributeClusters geometry first.validDataLength)
      (absoluteMappings 0 first.runs), m.Narrow geometry.clusterSize position 1 := by
    rintro other - ⟨-, upper⟩ past
    omega
  obtain ⟨-, filled, -⟩ := readBuffer_spec_of_narrow geometry tidy Nat.one_pos (by decide) narrow
    (fun _ => 0xff)
  have byte := filled _ (mem_clipMappings_iff.mpr ⟨m, member, before, rfl⟩) 0 Nat.one_pos holds
  rw [read, getElem?_validBytes _ _ _ _ _ Nat.one_pos, Nat.add_zero] at byte
  have value := Option.some.inj byte
  by_cases inData : position < first.validDataLength
  · rw [if_pos inData, attributeByte_whole member (holdsByte_of_clipped holds)] at value
    refine ⟨inData, fun hole => ?_⟩
    rw [if_pos hole] at value
    have different : (0 : UInt8) = 0xff := value
    exact absurd different (by decide)
  · rw [if_neg inData] at value
    have different : (0 : UInt8) = 0xff := value
    exact absurd different (by decide)

/-- A byte of a request for just more than the rest of a clipped mapping. -/
theorem byte_past_of_readsRanges
    (reads : ReadsRanges undefinedShift geometry first first rest) {m : Mapping}
    (member : m ∈ absoluteMappings 0 first.runs)
    (before : m.vcn < attributeClusters geometry first.validDataLength) {stop : Nat}
    (isStop : ((m.clipped (attributeClusters geometry first.validDataLength)).vcn +
      (m.clipped (attributeClusters geometry first.validDataLength)).length) *
        geometry.clusterSize = stop) {offset length : Nat}
    (starts : m.vcn * geometry.clusterSize ≤ offset) (inside : offset < stop)
    (past : offset + length = stop + 1) (short : length < halfWordModulus)
    (inFile : stop < first.fileSize) {index : Nat} (inBuffer : index < length)
    (behind : ∀ next ∈ clipMappings (attributeClusters geometry first.validDataLength)
      (absoluteMappings 0 first.runs),
        (m.clipped (attributeClusters geometry first.validDataLength)).vcn +
          (m.clipped (attributeClusters geometry first.validDataLength)).length ≤ next.vcn →
        offset + index < next.vcn * geometry.clusterSize) :
    (if offset + index < first.validDataLength then
      attributeByte (fun _ => 0xff) geometry.clusterSize
        (absoluteMappings 0 (wholeRuns first rest)) (offset + index) else 0) =
      if index < stop % halfWordModulus then 0xff else 0 := by
  have tidy := (tidyMappings_absoluteMappings 0 first.runs).1.clip
    (attributeClusters geometry first.validDataLength)
  have read := readBuffer_of_readsRanges found held valid word reads (fun _ => 0xff)
    (show 0 < length by omega) short (show offset + length ≤ first.fileSize by omega)
  have byte := readBuffer_past (m := m.clipped (attributeClusters geometry first.validDataLength))
    tidy (mem_clipMappings_iff.mpr ⟨m, member, before, rfl⟩) starts (isStop ▸ inside)
    (isStop ▸ past) short inBuffer behind
  rw [read, getElem?_validBytes _ _ _ _ _ inBuffer, isStop] at byte
  exact Option.some.inj byte

omit found held valid word in
theorem mod_halfWord_mod_four (large : 4 ≤ geometry.clusterSize) (count : Nat) :
    count * geometry.clusterSize % halfWordModulus % 4 = 0 := by
  have four : 4 ∣ geometry.clusterSize := by
    rw [Geometry.clusterSize, geometry.clusterSize_eq] at large ⊢
    have exponent : 2 ≤ geometry.exponent := by
      by_contra small
      have power : 2 ^ geometry.exponent ≤ 2 ^ 1 := Nat.pow_le_pow_right (by decide) (by omega)
      omega
    exact Nat.pow_dvd_pow 2 exponent
  rw [Nat.mod_mod_of_dvd _ (by decide : 4 ∣ halfWordModulus)]
  exact Nat.mod_eq_zero_of_dvd (four.mul_left count)

/-- The valid data ends with the file. -/
theorem validDataLength_eq_of_readsRanges
    (reads : ReadsRanges undefinedShift geometry first first rest)
    (large : 4 ≤ geometry.clusterSize) (nonzero : first.validDataLength ≠ 0)
    (covered : first.validDataLength ≤ clusterCount first.runs * geometry.clusterSize) :
    first.validDataLength = first.fileSize := by
  by_contra different
  have shorter : first.validDataLength < first.fileSize := by omega
  obtain ⟨last, isLast⟩ :
      ∃ last, attributeClusters geometry first.validDataLength = last + 1 :=
    Nat.exists_eq_succ_of_ne_zero fun none => nonzero (attributeClusters_eq_zero_iff.mp none)
  have enough := attributeClusters_le_iff.mpr covered
  obtain ⟨m, member, lower, upper⟩ := exists_mem_absoluteMappings (Nat.zero_le last)
    (show last < 0 + (first.runs.map NtfsRun.length).sum by
      rw [Nat.zero_add]
      exact (show last < clusterCount first.runs by omega))
  have before : m.vcn < attributeClusters geometry first.validDataLength := by omega
  have stop : (m.clipped (attributeClusters geometry first.validDataLength)).vcn +
      (m.clipped (attributeClusters geometry first.validDataLength)).length =
        attributeClusters geometry first.validDataLength := by
    simp only [Mapping.clipped]
    omega
  have lastByte := lt_of_lt_attributeClusters
    (show last < attributeClusters geometry first.validDataLength by omega)
  have start : m.vcn * geometry.clusterSize ≤ last * geometry.clusterSize :=
    Nat.mul_le_mul_right _ lower
  have rounded := fileSize_le_clusters geometry first.validDataLength
  rcases Nat.eq_or_lt_of_le rounded with aligned | inside
  · -- the bytes behind the last cluster are read as well
    have isStop : ((m.clipped (attributeClusters geometry first.validDataLength)).vcn +
        (m.clipped (attributeClusters geometry first.validDataLength)).length) *
          geometry.clusterSize = first.validDataLength := by
      rw [stop, ← aligned]
    have behind : ∀ index, ∀ next ∈ clipMappings
        (attributeClusters geometry first.validDataLength) (absoluteMappings 0 first.runs),
        (m.clipped (attributeClusters geometry first.validDataLength)).vcn +
          (m.clipped (attributeClusters geometry first.validDataLength)).length ≤ next.vcn →
        first.validDataLength - 1 + index < next.vcn * geometry.clusterSize := by
      intro index next inList after
      obtain ⟨other, -, otherBefore, rfl⟩ := mem_clipMappings_iff.mp inList
      rw [stop] at after
      simp only at after
      omega
    have starts : m.vcn * geometry.clusterSize ≤ first.validDataLength - 1 := by omega
    have one := byte_past_of_readsRanges found held valid word reads member before isStop starts
      (show first.validDataLength - 1 < first.validDataLength by omega)
      (show first.validDataLength - 1 + 2 = first.validDataLength + 1 by omega) (by decide)
      shorter (show 0 < 2 by decide) (behind 0)
    have two := byte_past_of_readsRanges found held valid word reads member before isStop starts
      (show first.validDataLength - 1 < first.validDataLength by omega)
      (show first.validDataLength - 1 + 2 = first.validDataLength + 1 by omega) (by decide)
      shorter (show 1 < 2 by decide) (behind 1)
    have holds : (m.clipped (attributeClusters geometry first.validDataLength)).HoldsByte
        geometry.clusterSize (first.validDataLength - 1) := ⟨starts, by rw [isStop]; omega⟩
    have present := (valid_of_readsRanges found held valid word reads member before (by omega)
      holds).2
    rw [Nat.add_zero, if_pos (by omega), attributeByte_whole member (holdsByte_of_clipped holds),
      if_neg present] at one
    rw [if_neg (by omega)] at two
    have divided := mod_halfWord_mod_four large
      (attributeClusters geometry first.validDataLength)
    rw [← aligned] at divided
    by_cases bytes : 1 < first.validDataLength % halfWordModulus
    · rw [if_pos bytes] at two
      exact absurd two (by decide)
    · rw [if_neg (by omega)] at one
      have different : (0xff : UInt8) = 0 := one
      exact absurd different (by decide)
  · have holds : (m.clipped (attributeClusters geometry first.validDataLength)).HoldsByte
        geometry.clusterSize first.validDataLength := ⟨by simp only [Mapping.clipped]; omega, by rw [stop]; exact inside⟩
    exact absurd (valid_of_readsRanges found held valid word reads member before shorter holds).1
      (lt_irrefl _)

/-- No run but the last one ends beyond 2^32 bytes. -/
theorem direct_of_readsRanges
    (reads : ReadsRanges undefinedShift geometry first first rest)
    (large : 4 ≤ geometry.clusterSize) (nonzero : first.validDataLength ≠ 0)
    (covered : first.validDataLength ≤ clusterCount first.runs * geometry.clusterSize) :
    first.Direct geometry := by
  have clusters := geometry.clusterSize_pos
  have whole := validDataLength_eq_of_readsRanges found held valid word reads large nonzero covered
  have tidy := (tidyMappings_absoluteMappings 0 first.runs).1
  have beforeLast {m : Mapping} (starts : m.vcn * geometry.clusterSize < first.fileSize) :
      m.vcn < attributeClusters geometry first.validDataLength := by
    by_contra past
    have small := attributeClusters_le_iff.mp (Nat.not_lt.mp past)
    omega
  have present {m : Mapping} (member : m ∈ absoluteMappings 0 first.runs)
      (starts : m.vcn * geometry.clusterSize < first.fileSize) : m.lcn ≠ 0 := by
    have before := beforeLast starts
    have positive := tidy.positive m member
    refine (valid_of_readsRanges found held valid word reads member before starts
      ⟨le_rfl, ?_⟩).2
    exact Nat.mul_lt_mul_of_pos_right (by simp only [Mapping.clipped]; omega) clusters
  refine fun m member starts => ⟨present member starts, ?_⟩
  by_contra neither
  obtain ⟨long, ended⟩ := not_or.mp neither
  -- the first run that ends beyond 2^32 bytes
  have covering : first.fileSize ≤ clusterCount first.runs * geometry.clusterSize := by omega
  obtain ⟨big, inRuns, holds, before, clippedHolds⟩ := @exists_holdsByte geometry first.fields
    first.runs covering (halfWordModulus - 1)
    (show halfWordModulus - 1 < first.fileSize by omega)
  obtain ⟨lower, upper⟩ := holds
  have bigStarts : big.vcn * geometry.clusterSize < first.fileSize := by omega
  obtain ⟨stop, isStop⟩ :
      ∃ stop, (big.vcn + big.length) * geometry.clusterSize = stop := ⟨_, rfl⟩
  rw [isStop] at upper
  have inFile : stop < first.fileSize := by
    by_contra past
    have positive := tidy.positive m member
    have grows : (m.vcn + 1) * geometry.clusterSize ≤
        (m.vcn + m.length) * geometry.clusterSize :=
      Nat.mul_le_mul_right _ (by omega)
    rw [Nat.succ_mul] at grows
    have mine : m.HoldsByte geometry.clusterSize
        ((m.vcn + m.length) * geometry.clusterSize - 1) := ⟨by omega, by omega⟩
    have other : big.HoldsByte geometry.clusterSize
        ((m.vcn + m.length) * geometry.clusterSize - 1) := ⟨by omega, by rw [isStop]; omega⟩
    rw [Mapping.holdsByte_iff clusters] at mine other
    rw [tidy.unique member inRuns mine other, isStop] at ended
    omega
  have unclipped : big.clipped (attributeClusters geometry first.validDataLength) = big := by
    have inside : big.vcn + big.length ≤ attributeClusters geometry first.validDataLength := by
      by_contra past
      have scaled : attributeClusters geometry first.validDataLength * geometry.clusterSize ≤
          (big.vcn + big.length) * geometry.clusterSize :=
        Nat.mul_le_mul_right _ (by omega)
      have rounded := fileSize_le_clusters geometry first.validDataLength
      omega
    rw [Mapping.clipped, Nat.min_eq_left (by omega)]
  have four := mod_halfWord_mod_four large (big.vcn + big.length)
  have divided := Nat.div_add_mod stop halfWordModulus
  have quotient : 1 ≤ stop / halfWordModulus :=
    (Nat.one_le_div_iff (by decide)).mpr (by omega)
  have multiple : halfWordModulus * 1 ≤ halfWordModulus * (stop / halfWordModulus) :=
    Nat.mul_le_mul_left _ quotient
  have small := Nat.mod_lt stop (show 0 < halfWordModulus by decide)
  rw [isStop] at four
  have modulus : halfWordModulus % 4 = 0 := by decide
  have byte := byte_past_of_readsRanges found held valid word reads inRuns (beforeLast bigStarts)
    (by rw [unclipped]; exact isStop)
    (show big.vcn * geometry.clusterSize ≤ stop - stop % halfWordModulus - 1 by omega)
    (by omega)
    (show stop - stop % halfWordModulus - 1 + (stop % halfWordModulus + 2) = stop + 1 by omega)
    (by omega) inFile (show stop % halfWordModulus < stop % halfWordModulus + 2 by omega)
    (by
      intro next inList after
      rw [unclipped] at after
      have scaled := Nat.mul_le_mul_right geometry.clusterSize after
      omega)
  have holdsLast : big.HoldsByte geometry.clusterSize
      (stop - stop % halfWordModulus - 1 + stop % halfWordModulus) :=
    ⟨by omega, by rw [isStop]; omega⟩
  rw [if_pos (by omega), attributeByte_whole inRuns holdsLast,
    if_neg (present inRuns bigStarts), if_neg (lt_irrefl _)] at byte
  have different : (0xff : UInt8) = 0 := byte
  exact absurd different (by decide)

omit valid in
/-- A run list that can be read right is read right. -/
theorem readsRanges_of_direct
    (plain : first.Plain) (whole : first.validDataLength = first.fileSize)
    (covered : first.validDataLength ≤ clusterCount first.runs * geometry.clusterSize)
    (direct : first.Direct geometry) : ReadsRanges undefinedShift geometry first first rest := by
  intro device offset length positive short inside
  have stored := held.stored first List.mem_cons_self
  rw [readRecord_first stored found held.contiguous.1 (by omega) plain device positive inside]
  have tidy := (tidyMappings_absoluteMappings 0 first.runs).1
  have narrow : ∀ m ∈ clipMappings (attributeClusters geometry first.validDataLength)
      (absoluteMappings 0 first.runs), m.Narrow geometry.clusterSize offset length := by
    intro piece inList requested past
    obtain ⟨m, member, before, rfl⟩ := mem_clipMappings_iff.mp inList
    obtain ⟨lower, upper⟩ := requested
    simp only at lower upper past ⊢
    rcases Nat.le_total m.length (attributeClusters geometry first.validDataLength - m.vcn) with
      within | beyond
    · rw [Nat.min_eq_left within] at past ⊢
      rcases (direct m member (by omega)).2 with fits | last
      · exact fits
      · omega
    · rw [Nat.min_eq_right beyond, Nat.add_sub_cancel' before.le] at past
      have rounded := fileSize_le_clusters geometry first.validDataLength
      omega
  obtain ⟨bufLength, filled, -⟩ := readBuffer_spec_of_narrow geometry
    (tidy.clip (attributeClusters geometry first.validDataLength)) positive short narrow device
  refine congrArg Except.ok (List.ext_getElem? fun index => ?_)
  rcases Nat.lt_or_ge index length with inRequest | past
  · have covering : first.fileSize ≤ clusterCount first.runs * geometry.clusterSize := by omega
    obtain ⟨m, member, holds, before, clippedHolds⟩ := @exists_holdsByte geometry first.fields
      first.runs covering (offset + index)
      (show offset + index < first.fileSize by omega)
    have present := (direct m member (lt_of_le_of_lt holds.1 (by omega))).1
    have size : attributeClusters geometry first.fields.fileSize =
        attributeClusters geometry first.validDataLength := by
      rw [whole]
      rfl
    rw [size] at before clippedHolds
    rw [filled _ (mem_clipMappings_iff.mpr ⟨m, member, before, rfl⟩) index inRequest clippedHolds,
      getElem?_validBytes _ _ _ _ _ inRequest, if_pos (by omega),
      attributeByte_whole member holds, if_neg present]
    rfl
  · rw [List.getElem?_eq_none (by omega), List.getElem?_eq_none (by rw [length_validBytes]; exact past)]

end First

/-! ### The claim of the readers -/

/--
Whatever the device holds, `read` returns every range inside the file, and
`read_mappings` the mappings of the valid data.
-/
def ReadsWhole
    (undefinedShift : Nat → BitVec 64) (geometry : Geometry) (access : FileAccess) (inode : Nat)
    (record : Bytes) (type : Nat) (name : Bytes) (first : Piece) (rest : List Piece) : Prop :=
  ∀ device : Store,
    (∀ offset length, 0 < length → length < halfWordModulus →
      offset + length ≤ first.fileSize → ∃ enough, ∀ turns ≥ enough,
        fileRead ⟨undefinedShift, geometry, device⟩ access inode record turns offset length
            type name =
          .ok (validBytes device geometry.clusterSize
            (absoluteMappings 0 (wholeRuns first rest)) first.validDataLength offset length)) ∧
    ∃ enough, ∀ turns ≥ enough,
      fileReadMappings ⟨undefinedShift, geometry, device⟩ access inode record turns type name =
        .ok (clipMappings (attributeClusters geometry first.validDataLength)
          (absoluteMappings 0 (wholeRuns first rest)))

/--
The record that is taken suffices: there is no valid data and its own sizes say
no less, or it is the first piece, holds all data of the file, and can be read.
-/
structure Suffices (geometry : Geometry) (first piece : Piece) : Prop where
  plain : first.fileSize ≠ 0 → piece.Plain
  empty : first.validDataLength = 0 →
    piece.validDataLength = 0 ∧ first.fileSize ≤ piece.fileSize
  whole : first.validDataLength ≠ 0 → piece = first ∧ first.validDataLength = first.fileSize ∧
    first.fileSize ≤ clusterCount first.runs * geometry.clusterSize ∧ first.Direct geometry

theorem readsWhole_iff_of_find
    (layout : FileLayout access inode record visited)
    (held : HeldIn type name visited first rest) (member : piece ∈ first :: rest)
    (taken : visited.find? (ListedRecord.IsOf type name) = some piece.listed) :
    ReadsWhole undefinedShift geometry access inode record type name first rest ↔
      ReadsRanges undefinedShift geometry first piece rest ∧
      ∀ device, NtfsVolume.readMappings ⟨undefinedShift, geometry, device⟩ piece.listed.host
          piece.listed.att [] =
        .ok (clipMappings (attributeClusters geometry first.validDataLength)
          (absoluteMappings 0 (wholeRuns first rest))) := by
  have form := (held.stored piece member).form
  obtain ⟨readTurns, read⟩ := fileRead_of_find layout taken form
  obtain ⟨mapTurns, mappings⟩ := fileReadMappings_of_find layout taken form
  constructor
  · intro whole
    refine ⟨fun device offset length positive short inside => ?_, fun device => ?_⟩
    · obtain ⟨enough, result⟩ := (whole device).1 offset length positive short inside
      rw [← read _ offset length (max readTurns enough) (Nat.le_max_left _ _)]
      exact result _ (Nat.le_max_right _ _)
    · obtain ⟨enough, result⟩ := (whole device).2
      rw [← mappings _ (max mapTurns enough) (Nat.le_max_left _ _)]
      exact result _ (Nat.le_max_right _ _)
  · rintro ⟨ranges, maps⟩ device
    refine ⟨fun offset length positive short inside => ⟨readTurns, fun turns many => ?_⟩,
      mapTurns, fun turns many => ?_⟩
    · rw [read _ offset length turns many]
      exact ranges device offset length positive short inside
    · rw [mappings _ turns many]
      exact maps device

/-- The walk takes one of the records of the attribute. -/
theorem HeldIn.exists_taken (held : HeldIn type name visited first rest) :
    ∃ piece ∈ first :: rest,
      visited.find? (ListedRecord.IsOf type name) = some piece.listed := by
  have inVisited : first.listed ∈ visited.filter (ListedRecord.IsOf type name) :=
    held.records.subset (List.mem_map_of_mem List.mem_cons_self)
  obtain ⟨isVisited, isOf⟩ := List.mem_filter.mp inVisited
  obtain ⟨taken, isTaken⟩ : ∃ taken,
      visited.find? (ListedRecord.IsOf type name) = some taken := by
    refine Option.isSome_iff_exists.mp (List.find?_isSome.mpr ⟨_, isVisited, isOf⟩)
  have inFilter : taken ∈ visited.filter (ListedRecord.IsOf type name) :=
    List.mem_filter.mpr ⟨List.mem_of_find?_eq_some isTaken, List.find?_some isTaken⟩
  obtain ⟨piece, member, rfl⟩ := List.mem_map.mp (held.records.symm.subset inFilter)
  exact ⟨piece, member, isTaken⟩

/--
The readers give the whole attribute if and only if the first record of it that
the walk comes to suffices.
-/
theorem readsWhole_iff
    (layout : FileLayout access inode record visited)
    (held : HeldIn type name visited first rest) (large : 4 ≤ geometry.clusterSize)
    (covering : first.fileSize ≤ clusterCount (wholeRuns first rest) * geometry.clusterSize)
    (valid : first.validDataLength ≤ first.fileSize) (word : first.fileSize < 2 ^ 63) :
    ReadsWhole undefinedShift geometry access inode record type name first rest ↔
      ∃ piece ∈ first :: rest,
        visited.find? (ListedRecord.IsOf type name) = some piece.listed ∧
        Suffices geometry first piece := by
  have foundAt {piece : Piece}
      (taken : visited.find? (ListedRecord.IsOf type name) = some piece.listed) :
      AttributeAt piece.listed.host piece.listed.att piece.listed.header :=
    layout.attributeAt piece.listed (List.mem_of_find?_eq_some taken)
  constructor
  · intro whole
    obtain ⟨piece, member, taken⟩ := held.exists_taken
    have found := foundAt taken
    obtain ⟨ranges, maps⟩ := (readsWhole_iff_of_find layout held member taken).mp whole
    obtain ⟨zeros, nonzeros⟩ :=
      (readMappings_whole_iff held member found covering valid word fun _ => 0).mp (maps _)
    refine ⟨piece, member, taken, ?_⟩
    have stored := held.stored piece member
    refine ⟨fun nonempty => stored.plain_of_readRecord found
      (ranges (fun _ => 0) 0 1 Nat.one_pos (by decide) (by omega)), fun zero => ?_, fun nonzero => ?_⟩
    · refine ⟨zeros zero, ?_⟩
      exact ((readsRanges_empty_iff stored found zero (zeros zero)).mp ranges).2
    · obtain ⟨rfl, covered⟩ := nonzeros nonzero
      have size := validDataLength_eq_of_readsRanges found held valid word ranges large nonzero
        covered
      exact ⟨rfl, size, by omega,
        direct_of_readsRanges found held valid word ranges large nonzero covered⟩
  · rintro ⟨piece, member, taken, sufficient⟩
    have found := foundAt taken
    have stored := held.stored piece member
    refine (readsWhole_iff_of_find layout held member taken).mpr ⟨?_, fun device => ?_⟩
    · by_cases zero : first.validDataLength = 0
      · obtain ⟨pieceZero, size⟩ := sufficient.empty zero
        exact (readsRanges_empty_iff stored found zero pieceZero).mpr ⟨sufficient.plain, size⟩
      · obtain ⟨rfl, size, covered, direct⟩ := sufficient.whole zero
        exact readsRanges_of_direct found held word (sufficient.plain (by omega)) size
          (by omega) direct
    · refine (readMappings_whole_iff held member found covering valid word device).mpr
        ⟨fun zero => (sufficient.empty zero).1, fun nonzero => ?_⟩
      obtain ⟨equal, size, covered, -⟩ := sufficient.whole nonzero
      exact ⟨equal, by omega⟩

end Pieces

/-! ## Examples -/

theorem one_short : 1 < 2 ^ 52 := by
  decide

theorem hundred_addressed : ∀ start ∈ some 100, 0 < start ∧ start < 2 ^ 52 := by
  decide

/-- A record with the two clusters of the file in one run. -/
def wholeBase : Bytes :=
  recordWith (dataAttribute 0 3 2)

def wholePiece : Piece where
  listed := { ent := 0, reference := 5, host := wholeBase, att := 56, header := dataHeader 0 3 }
  flags := 0
  pairs := 64
  runs := [⟨2, some 100, by decide, by decide, hundred_addressed⟩]
  fileSize := 8192
  validDataLength := 8192

theorem wholePiece_layout :
    FileLayout noExtensions 5 wholeBase [wholePiece.listed] := by
  refine .plain ⟨56, [(56, dataHeader 0 3)], by decide +kernel,
    ⟨rfl, by decide +kernel, ?_, 72, by decide +kernel, attributeChain_nil (by decide +kernel)⟩,
    by decide +kernel, rfl⟩
  constructor <;> decide +kernel

theorem wholePiece_held : HeldIn 0x80 [] [wholePiece.listed] wholePiece [] := by
  refine ⟨List.forall_mem_singleton.mpr ?_, ?_, ⟨rfl, trivial⟩, fun several => absurd rfl several⟩
  · constructor <;> decide +kernel
  · exact List.Perm.refl _

/-- A file in one record is read whole. -/
theorem readsWhole_wholePiece :
    ReadsWhole (fun _ => 0) smallGeometry noExtensions 5 wholeBase 0x80 [] wholePiece [] := by
  refine (readsWhole_iff wholePiece_layout wholePiece_held (by decide) (by decide) (by decide)
    (by decide)).mpr ⟨wholePiece, List.mem_cons_self, rfl, fun _ => ⟨rfl, rfl⟩, ?_, fun _ => ?_⟩
  · exact fun zero => absurd zero (by decide)
  · exact ⟨rfl, rfl, by decide, by unfold Piece.Direct; decide⟩

/-- The piece of the data in the base record. -/
def firstPiece : Piece where
  listed := basePiece true
  flags := 0
  pairs := 64
  runs := [⟨1, some 100, Nat.one_pos, one_short, hundred_addressed⟩]
  fileSize := 8192
  validDataLength := 8192

/-- The piece in the extension record. -/
def secondPiece : Piece where
  listed := extensionPiece true
  flags := 0
  pairs := 64
  runs := [⟨1, some 100, Nat.one_pos, one_short, hundred_addressed⟩]
  fileSize := 0
  validDataLength := 0

theorem firstPiece_held :
    HeldIn 0x80 [] (visitOrder 5 (piecesListed true)) firstPiece [secondPiece] := by
  refine ⟨List.forall_mem_cons.mpr ⟨?_, List.forall_mem_singleton.mpr ?_⟩, ?_,
    ⟨rfl, rfl, trivial⟩, fun _ => ?_⟩
  · constructor <;> decide +kernel
  · constructor <;> decide +kernel
  · exact List.Perm.refl _
  · exact List.forall_mem_cons.mpr ⟨List.cons_ne_nil _ _,
      List.forall_mem_singleton.mpr (List.cons_ne_nil _ _)⟩

/-- A file in two records is not. -/
theorem not_readsWhole_two_pieces :
    ListedFile (piecesAccess true) 5 (piecesBase true) (piecesList true) (piecesListed true) ∧
      HeldIn 0x80 [] (visitOrder 5 (piecesListed true)) firstPiece [secondPiece] ∧
      ¬ ReadsWhole (fun _ => 0) smallGeometry (piecesAccess true) 5 (piecesBase true) 0x80 []
        firstPiece [secondPiece] := by
  refine ⟨listedFile_piecesListed true, firstPiece_held, fun whole => ?_⟩
  have layout := FileLayout.listed (listedFile_piecesListed true)
  have taken : (visitOrder 5 (piecesListed true)).find? (ListedRecord.IsOf 0x80 []) =
      some firstPiece.listed := rfl
  obtain ⟨-, maps⟩ :=
    (readsWhole_iff_of_find layout firstPiece_held List.mem_cons_self taken).mp whole
  obtain ⟨-, nonzero⟩ := (readMappings_whole_iff firstPiece_held List.mem_cons_self
    (layout.attributeAt _ (List.mem_of_find?_eq_some taken)) (by decide) (by decide) (by decide)
    fun _ => 0).mp (maps _)
  exact absurd (nonzero (by decide)).2 (by decide)

end Ntfs2Btrfs
