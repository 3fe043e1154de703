import Mathlib.Data.Nat.Bitwise
import Ntfs2Btrfs.Basic
import Ntfs2Btrfs.Fixups
import Ntfs2Btrfs.Lib.SignedFields

/-!
# Mapping pairs

`read_nonresident_mappings` decodes the run list of a non-resident attribute
record into mappings from virtual to logical clusters, and cuts it at the end
of the valid data.

The record is a stretch of memory that is not bounded: the reader checks
nowhere whether its pointer is still inside the record.  A shift of a 64-bit
word by 64 or more has no defined value in the source; its result is a
parameter here.
-/

namespace Ntfs2Btrfs

open ByteStore SignedFields

/-! ## The code -/

/-- `mapping`. -/
structure Mapping where
  lcn : Nat
  vcn : Nat
  length : Nat
deriving DecidableEq, Repr

/-- The fields of a non-resident attribute record that the readers use. -/
structure NonresidentAttribute where
  lowestVcn : Nat
  mappingPairs : Nat
  fileSize : Nat := 0
  validDataLength : Nat := 0
deriving DecidableEq, Repr

/-- What the NTFS reader throws. -/
inductive NtfsError where
  | lengthTooWide
  | offsetTooWide
  | seeking (offset : Nat)
  | reading (length offset : Nat)
  | encryptedAttribute
  | compressedAttribute
  | attributeIsResident
  | attributeNotFound
  | indexRecordMagic
  | fixups (error : FixupError)
deriving DecidableEq, Repr

/-- `1ull << amount`. -/
def shiftOne (undefinedShift : Nat → BitVec 64) (amount : Nat) : BitVec 64 :=
  if amount < 64 then 1#64 <<< amount else undefinedShift amount

/-- The signed field of `width` bytes at `stream`, widened to 64 bits. -/
def signedField
    (undefinedShift : Nat → BitVec 64) (memory : Store) (stream width : Nat) :
    BitVec 64 :=
  let mask := shiftOne undefinedShift (width * 8) - 1#64
  let val := BitVec.ofNat 64 (unle (memory.read stream 8)) &&& mask
  -- sign-extend if negative
  if val &&& shiftOne undefinedShift (wordSub (width * 8) 1) ≠ 0#64 then
    val ||| (0xffffffffffffffff#64 &&& ~~~mask)
  else val

/-- The number of clusters that hold valid data. -/
def maxCluster (clusterSize vdl : Nat) : Nat :=
  vdl / clusterSize + if vdl &&& (clusterSize - 1) ≠ 0 then 1 else 0

/-- A decoded mapping pair; a hole has no delta. -/
structure MappingPair where
  count : Nat
  delta : Option Nat
deriving DecidableEq, Repr

/--
The pair at `stream` and the address after it; no pair where the header byte
is zero.
-/
def readPair (undefinedShift : Nat → BitVec 64) (memory : Store) (stream : Nat) :
    Except NtfsError (Option (MappingPair × Nat)) :=
  if memory stream = 0 then .ok none
  else
    let v := (memory stream).toNat &&& 0xf
    let l := (memory stream).toNat >>> 4
    if v > 8 then .error .lengthTooWide
    else if l > 8 then .error .offsetTooWide
    else
      let count := (signedField undefinedShift memory (stream + 1) v).toNat
      if l ≠ 0 then
        let delta := (signedField undefinedShift memory (stream + 1 + v) l).toNat
        .ok (some (⟨count, some delta⟩, stream + 1 + v + l))
      else .ok (some (⟨count, none⟩, stream + 1 + v))

/-- The cluster number after a pair, modulo 2^64 and not past the valid data. -/
def advanceVcn (maxCluster currentVcn count : Nat) : Nat :=
  let advanced := (currentVcn + count) % wordModulus
  if advanced > maxCluster then maxCluster else advanced

/-- The mapping that a pair is decoded to. -/
def pairMapping (maxCluster currentVcn currentLcn : Nat) (pair : MappingPair) : Mapping :=
  { lcn := if pair.delta.isSome then (currentLcn + pair.delta.getD 0) % wordModulus else 0
    vcn := currentVcn
    length := wordSub (advanceVcn maxCluster currentVcn pair.count) currentVcn }

/-- How the reader left its loop, if it did. -/
inductive ReadEnd where
  | running
  | finished
  | failed (error : NtfsError)
deriving DecidableEq, Repr

/-- The loop of `read_nonresident_mappings`, with a bound on the number of turns. -/
def readMappingsLoop
    (undefinedShift : Nat → BitVec 64) (memory : Store) (maxCluster : Nat) :
    Nat → Nat → Nat → Nat → List Mapping → List Mapping × ReadEnd
  | 0, _, _, _, mappings => (mappings, .running)
  | turns + 1, stream, currentVcn, currentLcn, mappings =>
      match readPair undefinedShift memory stream with
      | .error error => (mappings, .failed error)
      | .ok none => (mappings, .finished)
      | .ok (some (pair, stream)) =>
          let nextVcn := advanceVcn maxCluster currentVcn pair.count
          let mapping := pairMapping maxCluster currentVcn currentLcn pair
          if nextVcn = maxCluster then (mappings ++ [mapping], .finished)
          else
            readMappingsLoop undefinedShift memory maxCluster turns stream nextVcn
              ((currentLcn + pair.delta.getD 0) % wordModulus) (mappings ++ [mapping])

/-- `read_nonresident_mappings`: the mappings appended so far, and how it ended. -/
def readNonresidentMappings
    (undefinedShift : Nat → BitVec 64) (memory : Store) (turns : Nat)
    (att : NonresidentAttribute) (mappings : List Mapping) (clusterSize vdl : Nat) :
    List Mapping × ReadEnd :=
  if maxCluster clusterSize vdl = 0 then (mappings, .finished)
  else
    readMappingsLoop undefinedShift memory (maxCluster clusterSize vdl) turns
      att.mappingPairs att.lowestVcn 0 mappings

/-! ## Fields -/

theorem toNat_shiftOne
    (undefinedShift : Nat → BitVec 64) {amount : Nat} (small : amount < 64) :
    (shiftOne undefinedShift amount).toNat = 2 ^ amount := by
  have power := Nat.pow_lt_pow_right (a := 2) (by decide) small
  rw [shiftOne, if_pos small, BitVec.toNat_shiftLeft, Nat.shiftLeft_eq]
  simp only [BitVec.toNat_ofNat]
  omega

theorem toNat_shiftOne_sub
    (undefinedShift : Nat → BitVec 64) {amount : Nat} (small : amount < 64) :
    (shiftOne undefinedShift amount - 1#64).toNat = 2 ^ amount - 1 := by
  have power := toNat_shiftOne undefinedShift small
  have positive := Nat.two_pow_pos amount
  rw [BitVec.toNat_sub_of_le, power]
  · rfl
  · rw [BitVec.le_def, power]
    exact positive

/-- The sign bit of a number that fits its field. -/
theorem and_signBit_ne_zero_iff {raw bits : Nat} (positive : 0 < bits)
    (bound : raw < 2 ^ bits) :
    raw &&& 2 ^ (bits - 1) ≠ 0 ↔ 2 ^ (bits - 1) ≤ raw := by
  have half : 2 ^ bits = 2 * 2 ^ (bits - 1) := by
    rw [← pow_succ', Nat.sub_add_cancel positive]
  have quotient : raw / 2 ^ (bits - 1) < 2 := by
    rw [Nat.div_lt_iff_lt_mul (Nat.two_pow_pos _)]
    omega
  have digit : raw / 2 ^ (bits - 1) = 1 ↔ 2 ^ (bits - 1) ≤ raw := by
    rw [← Nat.one_le_div_iff (Nat.two_pow_pos _)]
    omega
  rw [Nat.and_two_pow, Nat.testBit_eq_decide_div_mod_eq, Nat.mod_eq_of_lt quotient, ← digit]
  by_cases set : raw / 2 ^ (bits - 1) = 1 <;> simp [set]

/-- A field of one to seven bytes widens to its two's complement value. -/
theorem toNat_signedField
    (undefinedShift : Nat → BitVec 64) (memory : Store) (stream : Nat) {width : Nat}
    (positive : 1 ≤ width) (small : width ≤ 7) :
    (signedField undefinedShift memory stream width).toNat =
      if unle (memory.read stream width) < 2 ^ (8 * width - 1) then
        unle (memory.read stream width)
      else unle (memory.read stream width) + (2 ^ 64 - 2 ^ (8 * width)) := by
  have sign : wordSub (width * 8) 1 = width * 8 - 1 := by
    simp only [wordSub, wordModulus]
    omega
  have mask := toNat_shiftOne_sub undefinedShift (show width * 8 < 64 by omega)
  have bit := toNat_shiftOne undefinedShift (show width * 8 - 1 < 64 by omega)
  have bytes : (256 : Nat) ^ width = 2 ^ (width * 8) := by
    rw [show (256 : Nat) = 2 ^ 8 from rfl, ← pow_mul, mul_comm]
  have bound : unle (memory.read stream width) < 2 ^ (width * 8) := by
    have bound := unle_lt (memory.read stream width)
    rwa [Store.length_read, bytes] at bound
  have masked :
      (BitVec.ofNat 64 (unle (memory.read stream 8)) &&&
        (shiftOne undefinedShift (width * 8) - 1#64)).toNat =
          unle (memory.read stream width) := by
    have word : unle (memory.read stream 8) < 2 ^ 64 := by
      have bound := unle_lt (memory.read stream 8)
      rwa [Store.length_read, show (256 : Nat) ^ 8 = 2 ^ 64 by norm_num] at bound
    rw [BitVec.toNat_and, mask, Nat.and_two_pow_sub_one_eq_mod, BitVec.toNat_ofNat,
      Nat.mod_eq_of_lt word, ← memory.unle_read_mod stream (show width ≤ 8 by omega), bytes]
  rw [signedField, sign]
  rw [mul_comm 8 width]
  generalize BitVec.ofNat 64 (unle (memory.read stream 8)) &&&
    (shiftOne undefinedShift (width * 8) - 1#64) = val at *
  generalize unle (memory.read stream width) = raw at *
  have test : val &&& shiftOne undefinedShift (width * 8 - 1) ≠ 0#64 ↔
      2 ^ (width * 8 - 1) ≤ raw := by
    rw [Ne, ← BitVec.toNat_inj, BitVec.toNat_and, masked, bit]
    exact and_signBit_ne_zero_iff (by omega) bound
  simp only [test]
  split_ifs
  · omega
  · rw [BitVec.toNat_or, BitVec.toNat_and, BitVec.toNat_not, mask, masked]
    have power : 2 ^ 64 = 2 ^ (width * 8) * 2 ^ (64 - width * 8) := by
      rw [← pow_add, Nat.add_sub_cancel' (by omega)]
    have outside :
        (0xffffffffffffffff#64).toNat &&& (2 ^ 64 - 1 - (2 ^ (width * 8) - 1)) =
          2 ^ (width * 8) * (2 ^ (64 - width * 8) - 1) := by
      have positive := Nat.two_pow_pos (width * 8)
      have ones : (0xffffffffffffffff#64).toNat = 2 ^ 64 - 1 := rfl
      rw [ones, Nat.and_comm, Nat.and_two_pow_sub_one_eq_mod, Nat.mod_eq_of_lt (by omega),
        Nat.mul_sub, ← power, Nat.mul_one]
      omega
    rw [outside, Nat.or_comm, ← Nat.two_pow_add_eq_or_of_lt bound, Nat.mul_sub, ← power,
      Nat.mul_one, Nat.add_comm]
  · exact masked
  · omega

/-! ## Decoded pairs -/

/-- The first pairs of a record, at most `count` of them. -/
def pairsFrom (undefinedShift : Nat → BitVec 64) (memory : Store) :
    Nat → Nat → List MappingPair
  | 0, _ => []
  | count + 1, stream =>
      match readPair undefinedShift memory stream with
      | .ok (some (pair, next)) => pair :: pairsFrom undefinedShift memory count next
      | _ => []

/-- The mappings that a list of pairs is decoded to. -/
def mappingsOf (maxCluster : Nat) : Nat → Nat → List MappingPair → List Mapping
  | _, _, [] => []
  | currentVcn, currentLcn, pair :: rest =>
      let nextVcn := advanceVcn maxCluster currentVcn pair.count
      pairMapping maxCluster currentVcn currentLcn pair ::
        if nextVcn = maxCluster then []
        else
          mappingsOf maxCluster nextVcn
            ((currentLcn + pair.delta.getD 0) % wordModulus) rest

theorem readPair_count_lt
    {undefinedShift : Nat → BitVec 64} {memory : Store} {stream next : Nat}
    {pair : MappingPair}
    (found : readPair undefinedShift memory stream = .ok (some (pair, next))) :
    pair.count < 2 ^ 64 := by
  simp only [readPair] at found
  split_ifs at found
  · cases found
  · obtain ⟨rfl, -⟩ := Prod.mk.inj (Option.some.inj (Except.ok.inj found))
    exact BitVec.isLt _
  · obtain ⟨rfl, -⟩ := Prod.mk.inj (Option.some.inj (Except.ok.inj found))
    exact BitVec.isLt _

/-- A record without a first pair has no pairs. -/
theorem pairsFrom_eq_nil
    {undefinedShift : Nat → BitVec 64} {memory : Store} {stream : Nat}
    (none : pairsFrom undefinedShift memory 1 stream = []) (count : Nat) :
    pairsFrom undefinedShift memory count stream = [] := by
  cases count with
  | zero => rfl
  | succ count =>
    rw [pairsFrom] at none ⊢
    split at none
    · exact absurd none (List.cons_ne_nil _ _)
    · rfl

theorem count_lt_of_mem_pairsFrom
    {undefinedShift : Nat → BitVec 64} {memory : Store} {count stream : Nat} :
    ∀ pair ∈ pairsFrom undefinedShift memory count stream, pair.count < 2 ^ 64 := by
  induction count generalizing stream with
  | zero => exact fun pair member => absurd member List.not_mem_nil
  | succ count ih =>
    rw [pairsFrom]
    split
    · rename_i pair next found
      intro other member
      rcases List.mem_cons.mp member with rfl | inRest
      · exact readPair_count_lt found
      · exact ih other inRest
    · exact fun pair member => absurd member List.not_mem_nil

/-- The reader appends what its pairs are decoded to. -/
theorem readMappingsLoop_fst
    (undefinedShift : Nat → BitVec 64) (memory : Store)
    (maxCluster turns stream currentVcn currentLcn : Nat) (mappings : List Mapping) :
    (readMappingsLoop undefinedShift memory maxCluster turns stream currentVcn currentLcn
        mappings).1 =
      mappings ++
        mappingsOf maxCluster currentVcn currentLcn
          (pairsFrom undefinedShift memory turns stream) := by
  induction turns generalizing stream currentVcn currentLcn mappings with
  | zero => exact (List.append_nil mappings).symm
  | succ turns ih =>
    rw [readMappingsLoop, pairsFrom]
    cases found : readPair undefinedShift memory stream with
    | error error => exact (List.append_nil mappings).symm
    | ok read =>
      cases read with
      | none => exact (List.append_nil mappings).symm
      | some outcome =>
        obtain ⟨pair, next⟩ := outcome
        simp only [mappingsOf]
        split_ifs with clamped
        · rfl
        · rw [ih, List.append_assoc, List.singleton_append]

theorem readNonresidentMappings_fst
    (undefinedShift : Nat → BitVec 64) (memory : Store) (turns : Nat)
    (att : NonresidentAttribute) (mappings : List Mapping) (clusterSize vdl : Nat) :
    (readNonresidentMappings undefinedShift memory turns att mappings clusterSize vdl).1 =
      mappings ++
        if maxCluster clusterSize vdl = 0 then []
        else
          mappingsOf (maxCluster clusterSize vdl) att.lowestVcn 0
            (pairsFrom undefinedShift memory turns att.mappingPairs) := by
  rw [readNonresidentMappings]
  split_ifs
  · exact (List.append_nil mappings).symm
  · exact readMappingsLoop_fst _ _ _ _ _ _ _ _

theorem maxCluster_eq (exponent vdl : Nat) :
    maxCluster (2 ^ exponent) vdl = (vdl + 2 ^ exponent - 1) / 2 ^ exponent := by
  have positive := Nat.two_pow_pos exponent
  have small := Nat.mod_lt vdl positive
  have divided := Nat.div_add_mod vdl (2 ^ exponent)
  rw [maxCluster, Nat.and_two_pow_sub_one_eq_mod]
  split_ifs with aligned
  · have sum : vdl + 2 ^ exponent - 1 =
        (vdl % 2 ^ exponent - 1) + 2 ^ exponent * (vdl / 2 ^ exponent + 1) := by
      rw [Nat.mul_add, Nat.mul_one]
      omega
    have zero : (vdl % 2 ^ exponent - 1) / 2 ^ exponent = 0 := Nat.div_eq_of_lt (by omega)
    rw [sum, Nat.add_mul_div_left _ _ positive, zero, Nat.zero_add]
  · have sum : vdl + 2 ^ exponent - 1 =
        (2 ^ exponent - 1) + 2 ^ exponent * (vdl / 2 ^ exponent) := by
      omega
    have zero : (2 ^ exponent - 1) / 2 ^ exponent = 0 := Nat.div_eq_of_lt (by omega)
    rw [sum, Nat.add_mul_div_left _ _ positive, zero, Nat.zero_add, Nat.add_zero]

theorem maxCluster_eq_zero_iff (exponent vdl : Nat) :
    maxCluster (2 ^ exponent) vdl = 0 ↔ vdl = 0 := by
  have positive := Nat.two_pow_pos exponent
  rw [maxCluster_eq, Nat.div_eq_zero_iff]
  omega

theorem maxCluster_lt {exponent vdl : Nat} (bound : vdl < 2 ^ 64) :
    maxCluster (2 ^ exponent) vdl < 2 ^ 64 := by
  have divided := Nat.div_add_mod vdl (2 ^ exponent)
  have scaled := Nat.le_mul_of_pos_left (vdl / 2 ^ exponent) (Nat.two_pow_pos exponent)
  rw [maxCluster, Nat.and_two_pow_sub_one_eq_mod]
  split_ifs <;> omega

/-! ## Mappings inside the valid data -/

/-- The mapping is not empty and lies between two cluster numbers. -/
def Mapping.Inside (mapping : Mapping) (lower upper : Nat) : Prop :=
  0 < mapping.length ∧ lower ≤ mapping.vcn ∧ mapping.vcn + mapping.length ≤ upper

instance (mapping : Mapping) (lower upper : Nat) : Decidable (mapping.Inside lower upper) :=
  inferInstanceAs (Decidable (_ ∧ _ ∧ _))

/--
Every pair that starts before the end of the valid data is as long as it says:
its count is not zero and does not take the cluster number past 2^64.
-/
def CountsAdvance (maxCluster start : Nat) (pairs : List MappingPair) : Prop :=
  ∀ front pair back, pairs = front ++ pair :: back →
    start + (front.map MappingPair.count).sum < maxCluster →
      pair.count ≠ 0 ∧ start + (front.map MappingPair.count).sum + pair.count < 2 ^ 64

theorem countsAdvance_nil (maxCluster start : Nat) : CountsAdvance maxCluster start [] := by
  intro front pair back shape
  exact absurd shape (by simp)

theorem countsAdvance_cons_iff
    {maxCluster start : Nat} (before : start < maxCluster) (pair : MappingPair)
    (rest : List MappingPair) :
    CountsAdvance maxCluster start (pair :: rest) ↔
      (pair.count ≠ 0 ∧ start + pair.count < 2 ^ 64) ∧
        CountsAdvance maxCluster (start + pair.count) rest := by
  constructor
  · intro advance
    refine ⟨advance [] pair rest rfl before, ?_⟩
    intro front next back shape earlier
    have shifted := advance (pair :: front) next back (by rw [shape, List.cons_append])
    rw [List.map_cons, List.sum_cons, ← Nat.add_assoc] at shifted
    exact shifted earlier
  · rintro ⟨first, later⟩ front next back shape earlier
    cases front with
    | nil =>
      obtain ⟨rfl, -⟩ := List.cons.inj shape
      exact first
    | cons head front =>
      obtain ⟨rfl, restShape⟩ := List.cons.inj shape
      rw [List.map_cons, List.sum_cons, ← Nat.add_assoc] at earlier ⊢
      exact later front next back restShape earlier

theorem countsAdvance_of_le
    {maxCluster start : Nat} (past : maxCluster ≤ start) (pairs : List MappingPair) :
    CountsAdvance maxCluster start pairs := by
  intro front pair back shape earlier
  omega

theorem advanceVcn_of_lt
    {maxCluster currentVcn count : Nat} (word : currentVcn + count < 2 ^ 64) :
    advanceVcn maxCluster currentVcn count = min (currentVcn + count) maxCluster := by
  rw [advanceVcn, wordModulus, Nat.mod_eq_of_lt word]
  split_ifs <;> omega

/-- A count that wraps takes the cluster number back. -/
theorem advanceVcn_of_le
    {maxCluster currentVcn count : Nat} (before : currentVcn < maxCluster)
    (bound : maxCluster < 2 ^ 64) (small : count < 2 ^ 64)
    (wraps : 2 ^ 64 ≤ currentVcn + count) :
    advanceVcn maxCluster currentVcn count = currentVcn + count - 2 ^ 64 := by
  have remainder : (currentVcn + count) % 2 ^ 64 = currentVcn + count - 2 ^ 64 := by omega
  rw [advanceVcn, wordModulus, remainder]
  exact if_neg (by omega)

/-- A pair that starts before the end of the valid data. -/
theorem pairMapping_inside_iff
    {maxCluster lower currentVcn : Nat} (currentLcn : Nat) {pair : MappingPair}
    (bound : maxCluster < 2 ^ 64) (above : lower ≤ currentVcn)
    (before : currentVcn < maxCluster) (word : pair.count < 2 ^ 64) :
    (pairMapping maxCluster currentVcn currentLcn pair).Inside lower maxCluster ↔
      pair.count ≠ 0 ∧ currentVcn + pair.count < 2 ^ 64 := by
  simp only [Mapping.Inside, pairMapping]
  rcases Nat.lt_or_ge (currentVcn + pair.count) (2 ^ 64) with fits | wraps
  · rw [advanceVcn_of_lt fits, wordSub, wordModulus]
    omega
  · rw [advanceVcn_of_le before bound word wraps, wordSub, wordModulus]
    omega

/-- Before the end of the valid data the mappings are inside exactly if the counts advance. -/
theorem mappingsOf_inside_iff
    {maxCluster lower currentVcn : Nat} (currentLcn : Nat) {pairs : List MappingPair}
    (bound : maxCluster < 2 ^ 64) (above : lower ≤ currentVcn)
    (before : currentVcn < maxCluster) (words : ∀ pair ∈ pairs, pair.count < 2 ^ 64) :
    (∀ mapping ∈ mappingsOf maxCluster currentVcn currentLcn pairs,
        mapping.Inside lower maxCluster) ↔
      CountsAdvance maxCluster currentVcn pairs := by
  induction pairs generalizing currentVcn currentLcn with
  | nil => simp [mappingsOf, countsAdvance_nil]
  | cons pair rest ih =>
    have inside := pairMapping_inside_iff currentLcn bound above before
      (words pair List.mem_cons_self)
    rw [countsAdvance_cons_iff before, mappingsOf, List.forall_mem_cons, inside]
    refine and_congr_right fun advances => ?_
    rw [advanceVcn_of_lt advances.2]
    split_ifs with clamped
    · simp [countsAdvance_of_le (show maxCluster ≤ currentVcn + pair.count by omega)]
    · have next : min (currentVcn + pair.count) maxCluster = currentVcn + pair.count := by omega
      rw [next]
      exact ih _ (by omega) (by omega) fun other member =>
        words other (List.mem_cons_of_mem pair member)

/--
What the reader appends is inside the record's share of the valid data exactly
if there is no valid data, or no pair, or the record starts before the end of
the valid data and its counts advance.
-/
theorem readNonresidentMappings_inside_iff
    (undefinedShift : Nat → BitVec 64) (memory : Store) (att : NonresidentAttribute)
    (mappings : List Mapping) (exponent : Nat) {vdl : Nat} (word : vdl < 2 ^ 64) :
    (∀ turns, ∃ appended,
        (readNonresidentMappings undefinedShift memory turns att mappings
          (2 ^ exponent) vdl).1 = mappings ++ appended ∧
        ∀ mapping ∈ appended,
          mapping.Inside att.lowestVcn ((vdl + 2 ^ exponent - 1) / 2 ^ exponent)) ↔
      vdl = 0 ∨
      pairsFrom undefinedShift memory 1 att.mappingPairs = [] ∨
      (att.lowestVcn < (vdl + 2 ^ exponent - 1) / 2 ^ exponent ∧
        ∀ count, CountsAdvance ((vdl + 2 ^ exponent - 1) / 2 ^ exponent) att.lowestVcn
          (pairsFrom undefinedShift memory count att.mappingPairs)) := by
  rw [← maxCluster_eq]
  have bound : maxCluster (2 ^ exponent) vdl < 2 ^ 64 := maxCluster_lt word
  simp only [readNonresidentMappings_fst, List.append_cancel_left_eq, exists_eq_left',
    ← maxCluster_eq_zero_iff exponent vdl]
  generalize maxCluster (2 ^ exponent) vdl = last at *
  by_cases empty : last = 0
  · simp [empty]
  simp only [empty, if_false, false_or]
  rcases Nat.lt_or_ge att.lowestVcn last with before | past
  · simp only [mappingsOf_inside_iff 0 bound le_rfl before count_lt_of_mem_pairsFrom, before,
      true_and]
    refine ⟨Or.inr, ?_⟩
    rintro (none | advance)
    · intro turns
      rw [pairsFrom_eq_nil none]
      exact countsAdvance_nil _ _
    · exact advance
  · simp only [Nat.not_lt.mpr past, false_and, or_false]
    constructor
    · intro inside
      cases pairs : pairsFrom undefinedShift memory 1 att.mappingPairs with
      | nil => rfl
      | cons pair rest =>
        have first := inside 1
        rw [pairs, mappingsOf, List.forall_mem_cons] at first
        obtain ⟨positive, -, upper⟩ := first.1
        simp only [pairMapping] at positive upper
        omega
    · intro none turns
      rw [pairsFrom_eq_nil none]
      exact fun mapping member => absurd member List.not_mem_nil

theorem readNonresidentMappings_inside_iff_one_pair :
    32768 < 2 ^ 64 ∧
    ((∀ turns, ∃ appended,
        (readNonresidentMappings (fun _ => 0) (Store.ofBytes [0x11, 4, 16, 0]) turns
          { lowestVcn := 0, mappingPairs := 0 } [] (2 ^ 12) 32768).1 = [] ++ appended ∧
        ∀ mapping ∈ appended, mapping.Inside 0 ((32768 + 2 ^ 12 - 1) / 2 ^ 12)) ↔
      32768 = 0 ∨
      pairsFrom (fun _ => 0) (Store.ofBytes [0x11, 4, 16, 0]) 1 0 = [] ∨
      (0 < (32768 + 2 ^ 12 - 1) / 2 ^ 12 ∧
        ∀ count, CountsAdvance ((32768 + 2 ^ 12 - 1) / 2 ^ 12) 0
          (pairsFrom (fun _ => 0) (Store.ofBytes [0x11, 4, 16, 0]) count 0))) :=
  ⟨by norm_num,
    readNonresidentMappings_inside_iff (fun _ => 0) (Store.ofBytes [0x11, 4, 16, 0])
      { lowestVcn := 0, mappingPairs := 0 } [] 12 (by norm_num)⟩

/-- A record that starts past the valid data gets a mapping of almost 2^64 clusters. -/
theorem readNonresidentMappings_wraps_past_valid_data :
    readNonresidentMappings (fun _ => 0) (Store.ofBytes [0x11, 4, 16, 0]) 2
        { lowestVcn := 16, mappingPairs := 0 } [] 4096 32768 =
      ([⟨16, 16, 2 ^ 64 - 8⟩], .finished) ∧
    ¬ (⟨16, 16, 2 ^ 64 - 8⟩ : Mapping).Inside 16 ((32768 + 4096 - 1) / 4096) := by
  decide +kernel

end Ntfs2Btrfs
