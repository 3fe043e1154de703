import Ntfs2Btrfs.Lib.ByteStore

/-!
# Records packed one after the other

A byte string that holds records without a count is decoded by parsing one
record, skipping its bytes, and going on until nothing is left.  Decoding the
concatenation of encoded records gives the records back, provided that every
encoded record is parsed whatever follows it.
-/

namespace PackedRecords

open ByteStore

variable {α : Type*}

/-- Parse records until the input is used up, with a bound on their number. -/
def decodeFrom (parse : Bytes → Option (α × Nat)) : Nat → Bytes → Option (List α)
  | _, [] => some []
  | 0, _ :: _ => none
  | fuel + 1, byte :: rest =>
      match parse (byte :: rest) with
      | none => none
      | some (record, size) =>
          (decodeFrom parse fuel ((byte :: rest).drop size)).map (record :: ·)

/-- Parse records until the input is used up. -/
def decode (parse : Bytes → Option (α × Nat)) (bytes : Bytes) :
    Option (List α) :=
  decodeFrom parse bytes.length bytes

/-- The parser reads an encoded record back, whatever follows it. -/
structure Reads
    (encode : α → Bytes) (parse : Bytes → Option (α × Nat)) (record : α) :
    Prop where
  nonempty : 0 < (encode record).length
  parse_append :
    ∀ rest, parse (encode record ++ rest) = some (record, (encode record).length)

theorem decodeFrom_flatMap
    {encode : α → Bytes} {parse : Bytes → Option (α × Nat)}
    {records : List α} (reads : ∀ record ∈ records, Reads encode parse record)
    {fuel : Nat} (enough : (records.flatMap encode).length ≤ fuel) :
    decodeFrom parse fuel (records.flatMap encode) = some records := by
  induction records generalizing fuel with
  | nil => cases fuel <;> rfl
  | cons record rest induction =>
      obtain ⟨nonempty, parsed⟩ := reads record (by simp)
      rw [List.flatMap_cons] at enough ⊢
      rw [List.length_append] at enough
      obtain ⟨fuel, rfl⟩ := Nat.exists_eq_succ_of_ne_zero
        (Nat.ne_of_gt (nonempty.trans_le ((Nat.le_add_right _ _).trans enough)))
      have later :=
        induction (fun other member => reads other (by simp [member]))
          (show (rest.flatMap encode).length ≤ fuel by omega)
      have parsedHere := parsed (rest.flatMap encode)
      have skipped :
          (encode record ++ rest.flatMap encode).drop (encode record).length =
            rest.flatMap encode :=
        List.drop_left
      cases shape : encode record ++ rest.flatMap encode with
      | nil =>
          rw [List.append_eq_nil_iff.mp shape |>.1] at nonempty
          exact absurd nonempty (Nat.lt_irrefl 0)
      | cons byte tail =>
          rw [shape] at parsedHere skipped
          simp only [decodeFrom, parsedHere, skipped, later, Option.map_some]

/-- Decoding a concatenation of encoded records gives the records. -/
theorem decode_flatMap
    {encode : α → Bytes} {parse : Bytes → Option (α × Nat)}
    {records : List α} (reads : ∀ record ∈ records, Reads encode parse record) :
    decode parse (records.flatMap encode) = some records :=
  decodeFrom_flatMap reads le_rfl

/-! ## Records in an array -/

/--
Parse records in an array with this many bytes left, until its end or until
something is no record.
-/
def readArray (parse : Bytes → Option (α × Nat)) (left : Nat) (bytes : Bytes) : List α :=
  match parse bytes with
  | none => []
  | some (record, size) =>
      record :: if size = 0 ∨ left ≤ size then [] else readArray parse (left - size) (bytes.drop size)
termination_by left

/-- Records that fit in the array are read back, if what follows them is no record. -/
theorem readArray_flatMap
    {encode : α → Bytes} {parse : Bytes → Option (α × Nat)}
    {records : List α} (reads : ∀ record ∈ records, Reads encode parse record)
    {rest : Bytes} (ends : parse rest = none)
    {left : Nat} (fits : (records.flatMap encode).length ≤ left) :
    readArray parse left (records.flatMap encode ++ rest) = records := by
  induction records generalizing left with
  | nil =>
      rw [List.flatMap_nil, List.nil_append, readArray]
      simp only [ends]
  | cons record others induction =>
      obtain ⟨here, later⟩ := List.forall_mem_cons.mp reads
      rw [List.flatMap_cons, List.length_append] at fits
      rw [List.flatMap_cons, List.append_assoc, readArray]
      simp only [here.parse_append]
      have nonempty := here.nonempty
      split_ifs with ended
      · -- no byte of the array is left for another record
        cases others with
        | nil => rfl
        | cons other more =>
            have second := (later other List.mem_cons_self).nonempty
            rw [List.flatMap_cons, List.length_append] at fits
            omega
      · rw [List.drop_left, induction later (by omega)]

end PackedRecords
