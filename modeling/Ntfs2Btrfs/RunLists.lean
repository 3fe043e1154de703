import Ntfs2Btrfs.Mappings

/-!
# Reading back a run list

NTFS stores a run list as mapping pairs: a length and the distance of the
logical cluster from that of the previous stretch, each as a signed field of
minimal width.  `read_nonresident_mappings` reads such a list back, cut at the
end of the valid data.
-/

namespace Ntfs2Btrfs

open ByteStore SignedFields

/-! ## Run lists and their encoding -/

/--
A run of an NTFS run list: a stretch of clusters, or a hole where no cluster is
given.  The bounds hold where byte addresses fit in 64 bits and clusters have
at least 4096 bytes.
-/
structure NtfsRun where
  length : Nat
  lcn : Option Nat
  positive : 0 < length
  short : length < 2 ^ 52
  addressed : ∀ start ∈ lcn, 0 < start ∧ start < 2 ^ 52
deriving DecidableEq

/-- A mapping pair; a hole has no distance. -/
def encodePair (length : Nat) : Option Int → Bytes
  | none => UInt8.ofNat (minWidth length) :: encode (minWidth length) length
  | some distance =>
      UInt8.ofNat (minWidth length + 16 * minWidth distance) ::
        (encode (minWidth length) length ++ encode (minWidth distance) distance)

/-- The distance of a run from the logical cluster of the previous stretch. -/
def NtfsRun.distance (run : NtfsRun) (previous : Nat) : Option Int :=
  run.lcn.map fun (start : Nat) => (start : Int) - previous

/-- The mapping pairs of a run list after a stretch at `previous`, with their end mark. -/
def encodeRuns : Nat → List NtfsRun → Bytes
  | _, [] => [0]
  | previous, run :: rest =>
      encodePair run.length (run.distance previous) ++
        encodeRuns (run.lcn.getD previous) rest

/-- The mappings of a run list that starts at the virtual cluster `vcn`. -/
def absoluteMappings : Nat → List NtfsRun → List Mapping
  | _, [] => []
  | vcn, run :: rest =>
      { lcn := run.lcn.getD 0, vcn := vcn, length := run.length } ::
        absoluteMappings (vcn + run.length) rest

/-- The parts of the mappings before a virtual cluster. -/
def clipMappings (last : Nat) (mappings : List Mapping) : List Mapping :=
  mappings.filterMap fun mapping =>
    if mapping.vcn < last then
      some { mapping with length := min mapping.length (last - mapping.vcn) }
    else none

/-! ## One field and one pair -/

theorem fits_seven {value : Int} (small : value.natAbs < 2 ^ 52) : Fits 7 value := by
  constructor <;> norm_num at small ⊢ <;> omega

theorem minWidth_le_seven {value : Int} (small : value.natAbs < 2 ^ 52) :
    minWidth value ≤ 7 :=
  minWidth_le (by decide) (fits_seven small)

/-- A stored field is widened to the number it holds, modulo 2^64. -/
theorem signedField_encode
    (undefinedShift : Nat → BitVec 64) {memory : Store} {stream : Nat} {value : Int}
    (small : value.natAbs < 2 ^ 52)
    (stored : memory.read stream (minWidth value) = encode (minWidth value) value) :
    (signedField undefinedShift memory stream (minWidth value)).toNat =
      (value % 2 ^ 64).toNat := by
  have positive := minWidth_pos value
  have width := minWidth_le_seven small
  have power : 2 ^ (8 * minWidth value) ≤ 2 ^ 64 :=
    Nat.pow_le_pow_right (by decide) (by omega)
  rw [toNat_signedField undefinedShift memory stream positive width, stored, unle_encode]
  rcases lt_or_ge value 0 with negative | nonneg
  · obtain ⟨equal, lower⟩ := wrap_of_neg positive (fits_minWidth value) negative
    rw [if_neg (Nat.not_lt.mpr lower)]
    have cast : ((2 ^ (8 * minWidth value) : Nat) : Int) = 2 ^ (8 * minWidth value) := by
      push_cast
      rfl
    omega
  · obtain ⟨equal, upper⟩ := wrap_of_nonneg positive (fits_minWidth value) nonneg
    rw [if_pos upper]
    omega

theorem header_fields {low high : Nat} (lowBound : low < 16) (highBound : high < 16) :
    (UInt8.ofNat (low + 16 * high)).toNat &&& 0xf = low ∧
      (UInt8.ofNat (low + 16 * high)).toNat >>> 4 = high := by
  have byte : (UInt8.ofNat (low + 16 * high)).toNat = low + 16 * high := by
    rw [UInt8.toNat_ofNat']
    omega
  rw [byte, Nat.shiftRight_eq_div_pow, show 0xf = 2 ^ 4 - 1 from rfl,
    Nat.and_two_pow_sub_one_eq_mod]
  omega

/-- A stored pair is read back, and the reader stands behind it. -/
theorem readPair_encodePair
    (undefinedShift : Nat → BitVec 64) {memory : Store} {stream length : Nat}
    {distance : Option Int} (positive : 0 < length) (short : length < 2 ^ 52)
    (near : ∀ value ∈ distance, value.natAbs < 2 ^ 52)
    (stored : memory.read stream (encodePair length distance).length =
      encodePair length distance) :
    readPair undefinedShift memory stream =
      .ok (some (⟨length, distance.map fun value => (value % 2 ^ 64).toNat⟩,
        stream + (encodePair length distance).length)) := by
  have lengthSmall : (length : Int).natAbs < 2 ^ 52 := short
  have lengthPos := minWidth_pos length
  have lengthWidth := minWidth_le_seven lengthSmall
  have whole : ((length : Int) % 2 ^ 64).toNat = length := by omega
  cases distance with
  | none =>
    obtain ⟨header, lengthStored⟩ := Store.read_eq_cons_iff.mp stored
    rw [length_encode] at lengthStored
    have count := signedField_encode undefinedShift lengthSmall lengthStored
    have fields := @header_fields (minWidth length) 0 (by omega) (by omega)
    rw [Nat.mul_zero, Nat.add_zero] at fields
    have marked : UInt8.ofNat (minWidth length) ≠ 0 := by
      intro zero
      rw [zero] at fields
      have low : 0 = minWidth length := fields.1
      omega
    rw [readPair, header, if_neg marked]
    simp only [fields]
    rw [if_neg (by omega), if_neg (by omega), if_neg (by simp), count, whole, encodePair,
      List.length_cons, length_encode, Nat.add_assoc, Nat.add_comm 1]
    rfl
  | some value =>
    have valueSmall := near value rfl
    have valuePos := minWidth_pos value
    have valueWidth := minWidth_le_seven valueSmall
    obtain ⟨header, fieldsStored⟩ := Store.read_eq_cons_iff.mp stored
    obtain ⟨lengthStored, valueStored⟩ := Store.read_eq_append_iff.mp fieldsStored
    rw [length_encode] at lengthStored valueStored
    rw [length_encode] at valueStored
    have count := signedField_encode undefinedShift lengthSmall lengthStored
    have delta := signedField_encode undefinedShift valueSmall valueStored
    have fields := @header_fields (minWidth length) (minWidth value) (by omega) (by omega)
    have marked : UInt8.ofNat (minWidth length + 16 * minWidth value) ≠ 0 := by
      intro zero
      rw [zero] at fields
      have low : 0 = minWidth length := fields.1
      omega
    rw [readPair, header, if_neg marked]
    simp only [fields]
    rw [if_neg (by omega), if_neg (by omega), if_pos (by omega), count, whole, delta,
      encodePair, List.length_cons, List.length_append, length_encode, length_encode]
    simp only [Option.map_some, Except.ok.injEq, Option.some.injEq, Prod.mk.injEq, true_and]
    omega

/-! ## The whole list -/

theorem clipMappings_absoluteMappings_of_le
    {last vcn : Nat} (past : last ≤ vcn) (runs : List NtfsRun) :
    clipMappings last (absoluteMappings vcn runs) = [] := by
  induction runs generalizing vcn with
  | nil => rfl
  | cons run rest ih =>
    rw [absoluteMappings, clipMappings, List.filterMap_cons, if_neg (Nat.not_lt.mpr past)]
    exact ih (past.trans (Nat.le_add_right _ _))

theorem clipMappings_absoluteMappings_cons
    {last vcn : Nat} (before : vcn < last) (run : NtfsRun) (rest : List NtfsRun) :
    clipMappings last (absoluteMappings vcn (run :: rest)) =
      ⟨run.lcn.getD 0, vcn, min run.length (last - vcn)⟩ ::
        clipMappings last (absoluteMappings (vcn + run.length) rest) := by
  rw [absoluteMappings, clipMappings, List.filterMap_cons, if_pos before]
  rfl

theorem NtfsRun.distance_small
    (run : NtfsRun) {previous : Nat} (bound : previous < 2 ^ 52) :
    ∀ value ∈ run.distance previous, value.natAbs < 2 ^ 52 := by
  intro value member
  obtain ⟨start, inRun, rfl⟩ := Option.map_eq_some_iff.mp member
  have addressed := run.addressed start inRun
  omega

/-- The running logical cluster follows the stretches; a hole leaves it alone. -/
theorem NtfsRun.add_distance
    (run : NtfsRun) {previous : Nat} (bound : previous < 2 ^ 52) :
    (previous + ((run.distance previous).map fun value => (value % 2 ^ 64).toNat).getD 0) %
        wordModulus =
      run.lcn.getD previous := by
  rw [NtfsRun.distance, wordModulus]
  cases found : run.lcn with
  | none => exact Nat.mod_eq_of_lt (bound.trans (by norm_num))
  | some start =>
    have addressed := run.addressed start found
    simp only [Option.map_some, Option.getD_some]
    omega

theorem NtfsRun.lcn_lt (run : NtfsRun) {previous : Nat} (bound : previous < 2 ^ 52) :
    run.lcn.getD previous < 2 ^ 52 := by
  cases found : run.lcn with
  | none => exact bound
  | some start => exact (run.addressed start found).2

/-- The mapping that the pair of a run is decoded to. -/
theorem pairMapping_run
    {maxCluster vcn previous : Nat} (run : NtfsRun) (bound : previous < 2 ^ 52)
    (last : maxCluster ≤ 2 ^ 63) (before : vcn < maxCluster) :
    pairMapping maxCluster vcn previous
        ⟨run.length, (run.distance previous).map fun value => (value % 2 ^ 64).toNat⟩ =
      ⟨run.lcn.getD 0, vcn, min run.length (maxCluster - vcn)⟩ := by
  have short := run.short
  have moved := run.add_distance bound
  have next := @advanceVcn_of_lt maxCluster vcn run.length (by omega)
  rw [pairMapping, next, moved, wordSub, wordModulus]
  refine Mapping.mk.injEq _ _ _ _ _ _ ▸ ⟨?_, rfl, by omega⟩
  cases found : run.lcn with
  | none => simp [NtfsRun.distance, found]
  | some start => simp [NtfsRun.distance, found]

/-- The loop reads a stored run list back, from any place where it may stand. -/
theorem readMappingsLoop_encodeRuns
    (undefinedShift : Nat → BitVec 64) {memory : Store} {maxCluster : Nat}
    {runs : List NtfsRun} {turns stream vcn previous : Nat} (mappings : List Mapping)
    (last : maxCluster ≤ 2 ^ 63) (before : vcn < maxCluster) (bound : previous < 2 ^ 52)
    (enough : runs.length < turns)
    (stored : memory.read stream (encodeRuns previous runs).length = encodeRuns previous runs) :
    readMappingsLoop undefinedShift memory maxCluster turns stream vcn previous mappings =
      (mappings ++ clipMappings maxCluster (absoluteMappings vcn runs), .finished) := by
  induction runs generalizing turns stream vcn previous mappings with
  | nil =>
    obtain ⟨turns, rfl⟩ := Nat.exists_eq_succ_of_ne_zero (Nat.ne_of_gt enough)
    have zero := (Store.read_eq_cons_iff.mp stored).1
    rw [readMappingsLoop, readPair, if_pos zero]
    exact congrArg (·, _) (List.append_nil mappings).symm
  | cons run rest ih =>
    obtain ⟨turns, rfl⟩ := Nat.exists_eq_succ_of_ne_zero (Nat.ne_of_gt (Nat.zero_lt_of_lt enough))
    have short := run.short
    obtain ⟨pairStored, restStored⟩ := Store.read_eq_append_iff.mp stored
    have pair := readPair_encodePair undefinedShift run.positive run.short
      (run.distance_small bound) pairStored
    have mapping := pairMapping_run run bound last before
    have next := @advanceVcn_of_lt maxCluster vcn run.length (by omega)
    rw [readMappingsLoop, pair]
    simp only [mapping, next, run.add_distance bound]
    rw [clipMappings_absoluteMappings_cons before]
    split_ifs with clamped
    · rw [clipMappings_absoluteMappings_of_le (by omega)]
    · have unclamped : min (vcn + run.length) maxCluster = vcn + run.length := by omega
      rw [unclamped, ih _ (by omega) (run.lcn_lt bound) (by simpa using enough) restStored,
        List.append_assoc, List.singleton_append]

theorem maxCluster_le {exponent vdl : Nat} (large : 12 ≤ exponent) (word : vdl < 2 ^ 64) :
    maxCluster (2 ^ exponent) vdl ≤ 2 ^ 52 := by
  have power : 2 ^ 12 ≤ 2 ^ exponent := Nat.pow_le_pow_right (by decide) large
  rw [maxCluster_eq, ← Nat.lt_succ_iff, Nat.div_lt_iff_lt_mul (Nat.two_pow_pos _)]
  have scaled : 2 ^ 52 * 2 ^ 12 ≤ 2 ^ 52 * 2 ^ exponent := Nat.mul_le_mul_left _ power
  rw [Nat.succ_mul]
  omega

/--
A stored run list is read back with absolute logical clusters and running
virtual clusters, cut at the end of the valid data.
-/
theorem readNonresidentMappings_encodeRuns
    (undefinedShift : Nat → BitVec 64) {memory : Store} {att : NonresidentAttribute}
    {runs : List NtfsRun} {exponent vdl turns : Nat} (mappings : List Mapping)
    (large : 12 ≤ exponent) (word : vdl < 2 ^ 64)
    (before : att.lowestVcn < (vdl + 2 ^ exponent - 1) / 2 ^ exponent)
    (stored : memory.read att.mappingPairs (encodeRuns 0 runs).length = encodeRuns 0 runs)
    (enough : runs.length < turns) :
    readNonresidentMappings undefinedShift memory turns att mappings (2 ^ exponent) vdl =
      (mappings ++
        clipMappings ((vdl + 2 ^ exponent - 1) / 2 ^ exponent)
          (absoluteMappings att.lowestVcn runs), .finished) := by
  rw [← maxCluster_eq] at before ⊢
  rw [readNonresidentMappings, if_neg (Nat.ne_of_gt (Nat.zero_lt_of_lt before))]
  have last : maxCluster (2 ^ exponent) vdl ≤ 2 ^ 63 :=
    (maxCluster_le large word).trans (by norm_num)
  exact readMappingsLoop_encodeRuns undefinedShift mappings last before
    (by norm_num) enough stored

/-- Two stretches, the second below the first, with a hole between them. -/
theorem readNonresidentMappings_encodeRuns_two_stretches :
    encodeRuns 0
        [⟨4, some 400, by decide, by decide, by decide⟩,
          ⟨200, none, by decide, by decide, by decide⟩,
          ⟨3, some 8, by decide, by decide, by decide⟩] =
      [0x21, 4, 0x90, 1, 2, 200, 0, 0x21, 3, 0x78, 0xfe, 0] ∧
    readNonresidentMappings (fun _ => 0)
        (Store.ofBytes [0x21, 4, 0x90, 1, 2, 200, 0, 0x21, 3, 0x78, 0xfe, 0]) 4
        { lowestVcn := 0, mappingPairs := 0 } [] (2 ^ 12) (2 ^ 12 * 206) =
      ([⟨400, 0, 4⟩, ⟨0, 4, 200⟩, ⟨8, 204, 2⟩], .finished) := by
  have encoded :
      encodeRuns 0
        [⟨4, some 400, by decide, by decide, by decide⟩,
          ⟨200, none, by decide, by decide, by decide⟩,
          ⟨3, some 8, by decide, by decide, by decide⟩] =
      [0x21, 4, 0x90, 1, 2, 200, 0, 0x21, 3, 0x78, 0xfe, 0] := by
    decide +kernel
  refine ⟨encoded, ?_⟩
  rw [readNonresidentMappings_encodeRuns (fun _ => 0) []
    (by decide) (by norm_num) (by decide +kernel) (by rw [encoded]; decide +kernel) (by decide)]
  decide +kernel

end Ntfs2Btrfs
