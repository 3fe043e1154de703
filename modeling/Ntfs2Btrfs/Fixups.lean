import Ntfs2Btrfs.Lib.ByteStore

/-!
# Multi-sector records

The last word of every sector of a protected record is a check mark, the update
sequence number.  The words that it replaced are kept in an array inside the
record.  `process_fixups` compares the marks and puts the words back; it works
in place, on the record that the array is part of.
-/

namespace Ntfs2Btrfs

open ByteStore

/-! ## The code -/

inductive FixupError where
  | lengthNotMultiple
  | arraySize (size expected : Nat)
  | sequenceMismatch
deriving DecidableEq, Repr

/-- The two bytes of a word, least significant first. -/
def word (record : Bytes) (offset : Nat) : Bytes :=
  slice record offset 2

/-- `UpdateSequenceArrayOffset` of the header. -/
def updateSequenceArrayOffset (record : Bytes) : Nat :=
  unle (word record 4)

/-- `UpdateSequenceArraySize` of the header. -/
def updateSequenceArraySize (record : Bytes) : Nat :=
  unle (word record 6)

/-- Where the last word of a sector is. -/
def lastWordAt (sectorSize sector : Nat) : Nat :=
  sector * sectorSize + sectorSize - 2

/-- The loop of `process_fixups` from the sector `index` on. -/
def fixupLoop (sectorSize seq : Nat) : Nat → Nat → Bytes → Except FixupError Bytes
  | 0, _, record => .ok record
  | count + 1, index, record =>
      let ptr := lastWordAt sectorSize index
      if word record ptr ≠ word record seq then .error .sequenceMismatch
      else
        fixupLoop sectorSize seq count (index + 1)
          (patch record ptr (word record (seq + 2 * (index + 1))))

/-- `process_fixups`. -/
def processFixups (length sectorSize : Nat) (record : Bytes) : Except FixupError Bytes :=
  if length % sectorSize ≠ 0 then .error .lengthNotMultiple
  else
    let sectors := length / sectorSize
    if updateSequenceArraySize record < sectors + 1 then
      .error (.arraySize (updateSequenceArraySize record) (sectors + 1))
    else
      fixupLoop sectorSize (updateSequenceArrayOffset record) sectors 0 record

/-! ## Protection -/

/-- Give the last words of `count` sectors from the sector `index` on new values. -/
def setLastWords (sectorSize : Nat) (value : Nat → Bytes) : Nat → Nat → Bytes → Bytes
  | 0, _, record => record
  | count + 1, index, record =>
      setLastWords sectorSize value count (index + 1)
        (patch record (lastWordAt sectorSize index) (value index))

/-- The update sequence number, followed by the last word of every sector. -/
def updateSequenceArray (sectorSize sectors : Nat) (usn record : Bytes) : Bytes :=
  usn ++ (List.range sectors).flatMap fun sector => word record (lastWordAt sectorSize sector)

/--
A record as it is stored: the last words are saved in the array at `seq` and
replaced by the update sequence number.
-/
def protect (sectorSize sectors seq : Nat) (usn record : Bytes) : Bytes :=
  setLastWords sectorSize (fun _ => usn) sectors 0
    (patch record seq (updateSequenceArray sectorSize sectors usn record))

/--
An array for `sectors` sectors lies in the record, and it has no byte in common
with the last word of a sector.
-/
structure ArrayInside (sectorSize sectors seq : Nat) : Prop where
  inside : seq + 2 * (sectors + 1) ≤ sectors * sectorSize
  apart : ∀ sector < sectors,
    lastWordAt sectorSize sector + 2 ≤ seq ∨
      seq + 2 * (sectors + 1) ≤ lastWordAt sectorSize sector

/-- The position belongs to the last word of some sector. -/
def InLastWord (sectorSize sectors position : Nat) : Prop :=
  ∃ sector < sectors,
    lastWordAt sectorSize sector ≤ position ∧ position < lastWordAt sectorSize sector + 2

/-- The header of a record declares an array for `sectors` sectors at `seq`. -/
structure Declares (sectors seq : Nat) (record : Bytes) : Prop where
  offset_eq : updateSequenceArrayOffset record = seq
  size_le : sectors + 1 ≤ updateSequenceArraySize record

/-! ## Last words -/

theorem setLastWords_congr
    {sectorSize : Nat} {value other : Nat → Bytes} (count : Nat) :
    ∀ {index : Nat} {record : Bytes},
      (∀ sector, index ≤ sector → sector < index + count → value sector = other sector) →
        setLastWords sectorSize value count index record =
          setLastWords sectorSize other count index record := by
  induction count with
  | zero => exact fun _ => rfl
  | succ count induction =>
      intro index record same
      rw [setLastWords, setLastWords, same index le_rfl (by omega)]
      exact induction fun sector lower upper => same sector (by omega) (by omega)

/-- A word of a packed list of words. -/
theorem slice_flatMap_words
    {values : List Nat} {value : Nat → Bytes} (words : ∀ entry ∈ values, (value entry).length = 2)
    {index entry : Nat} (found : values[index]? = some entry) :
    slice (values.flatMap value) (2 * index) 2 = value entry := by
  induction values generalizing index with
  | nil => simp at found
  | cons first rest induction =>
      have width := words first List.mem_cons_self
      cases index with
      | zero =>
          obtain rfl : first = entry := by simpa using found
          rw [slice, List.flatMap_cons, Nat.mul_zero, List.drop_zero, List.take_left' width]
      | succ index =>
          rw [List.flatMap_cons, slice_behind width (by omega)]
          exact induction (fun entry member => words entry (List.mem_cons_of_mem _ member))
            (by simpa using found)

section LastWords

variable {sectorSize : Nat} (wide : 2 ≤ sectorSize)

include wide

theorem lastWordAt_add (sector : Nat) :
    lastWordAt sectorSize sector + 2 = (sector + 1) * sectorSize := by
  rw [lastWordAt, Nat.succ_mul]
  omega

theorem lastWordAt_inside {sector sectors : Nat} (inside : sector < sectors) :
    lastWordAt sectorSize sector + 2 ≤ sectors * sectorSize := by
  rw [lastWordAt_add wide]
  exact Nat.mul_le_mul_right sectorSize inside

theorem lastWordAt_lt {sector other : Nat} (before : sector < other) :
    lastWordAt sectorSize sector + 2 ≤ lastWordAt sectorSize other := by
  have ordered := Nat.mul_le_mul_right sectorSize (Nat.succ_le_of_lt before)
  have first := lastWordAt_add wide sector
  have second := lastWordAt_add wide other
  rw [Nat.succ_mul other] at second
  rw [Nat.succ_eq_add_one] at ordered
  omega

/-- What setting last words changes, and what it keeps. -/
theorem setLastWords_spec
    {value : Nat → Bytes} {sectors : Nat}
    (words : ∀ sector < sectors, (value sector).length = 2) (count : Nat) :
    ∀ {index : Nat} {record : Bytes}, index + count = sectors →
      record.length = sectors * sectorSize →
        let result := setLastWords sectorSize value count index record
        result.length = record.length ∧
          (∀ sector, index ≤ sector → sector < sectors →
            word result (lastWordAt sectorSize sector) = value sector) ∧
          ∀ position,
            (∀ sector, index ≤ sector → sector < sectors →
              position < lastWordAt sectorSize sector ∨
                lastWordAt sectorSize sector + 2 ≤ position) →
            result[position]? = record[position]? := by
  induction count with
  | zero =>
      intro index record counted whole
      exact ⟨rfl, fun sector lower upper => by omega, fun _ _ => rfl⟩
  | succ count induction =>
      intro index record counted whole
      have wordLength := words index (by omega)
      have fits : lastWordAt sectorSize index + (value index).length ≤ record.length := by
        rw [wordLength, whole]
        exact lastWordAt_inside wide (by omega)
      have patched := length_patch fits
      obtain ⟨length, set, kept⟩ :=
        @induction (index + 1) _ (by omega) (patched.trans whole)
      refine ⟨length.trans patched, fun sector lower upper => ?_, fun position outside => ?_⟩
      · rcases Nat.eq_or_lt_of_le lower with rfl | later
        · -- the later sectors leave the word of this one alone
          have own := slice_patch_self fits
          rw [wordLength] at own
          rw [setLastWords]
          refine Eq.trans (List.ext_getElem? fun offset => ?_) own
          rw [word, getElem?_slice, getElem?_slice]
          split_ifs with small
          · refine kept _ fun other above _ => Or.inl ?_
            have ordered := lastWordAt_lt wide (Nat.lt_of_succ_le above)
            omega
          · rfl
        · exact set sector later upper
      · rw [setLastWords, kept position fun sector lower upper =>
          outside sector (Nat.le_of_succ_le lower) upper, getElem?_patch fits, if_neg]
        rw [wordLength]
        have here := outside index le_rfl (by omega)
        omega

/-- A part of the record that no last word touches is kept. -/
theorem slice_setLastWords
    {value : Nat → Bytes} {sectors : Nat}
    (words : ∀ sector < sectors, (value sector).length = 2)
    {count index : Nat} (counted : index + count = sectors)
    {record : Bytes} (whole : record.length = sectors * sectorSize)
    {offset length : Nat}
    (apart : ∀ sector, index ≤ sector → sector < sectors →
      lastWordAt sectorSize sector + 2 ≤ offset ∨
        offset + length ≤ lastWordAt sectorSize sector) :
    slice (setLastWords sectorSize value count index record) offset length =
      slice record offset length := by
  obtain ⟨-, -, kept⟩ := setLastWords_spec wide words count counted whole
  refine List.ext_getElem? fun position => ?_
  rw [getElem?_slice, getElem?_slice]
  split_ifs with small
  · refine kept _ fun sector lower upper => ?_
    have outside := apart sector lower upper
    omega
  · rfl

/-! ## The loop -/

/-- The words of the array, from the first saved one on. -/
def savedWord (seq : Nat) (record : Bytes) (sector : Nat) : Bytes :=
  word record (seq + 2 * (sector + 1))

/--
The loop puts the words of the array back when every mark is right, and throws
otherwise.  No turn changes the array or a mark that is still to be compared.
-/
theorem fixupLoop_eq
    {seq sectors : Nat} (array : ArrayInside sectorSize sectors seq) (count : Nat) :
    ∀ {index : Nat} {record : Bytes}, index + count = sectors →
      record.length = sectors * sectorSize →
        fixupLoop sectorSize seq count index record =
          if ∀ sector, index ≤ sector → sector < sectors →
              word record (lastWordAt sectorSize sector) = word record seq then
            .ok (setLastWords sectorSize (savedWord seq record) count index record)
          else .error .sequenceMismatch := by
  induction count with
  | zero =>
      intro index record counted whole
      rw [if_pos fun sector lower upper => by omega]
      rfl
  | succ count induction =>
      intro index record counted whole
      have here : index < sectors := by omega
      have saved : (savedWord seq record index).length = 2 := by
        have room := array.inside
        exact length_slice (by omega)
      have fits : lastWordAt sectorSize index + (savedWord seq record index).length ≤
          record.length := by
        rw [saved, whole]
        exact lastWordAt_inside wide here
      have untouched {offset : Nat}
          (apart : offset + 2 ≤ lastWordAt sectorSize index ∨
            lastWordAt sectorSize index + 2 ≤ offset) :
          word (patch record (lastWordAt sectorSize index) (savedWord seq record index))
            offset = word record offset := by
        refine slice_patch_disjoint fits ?_
        rwa [saved]
      have inArray (sector : Nat) (upper : sector ≤ sectors) :
          word (patch record (lastWordAt sectorSize index) (savedWord seq record index))
            (seq + 2 * sector) = word record (seq + 2 * sector) := by
        have apart := array.apart index here
        exact untouched (by omega)
      have mark (sector : Nat) (lower : index + 1 ≤ sector) :
          word (patch record (lastWordAt sectorSize index) (savedWord seq record index))
            (lastWordAt sectorSize sector) =
              word record (lastWordAt sectorSize sector) :=
        untouched (Or.inr (lastWordAt_lt wide lower))
      rw [fixupLoop]
      by_cases right : word record (lastWordAt sectorSize index) = word record seq
      · have later := @induction (index + 1) _ (by omega)
          ((length_patch fits).trans whole)
        have first := inArray 0 (Nat.zero_le _)
        rw [Nat.mul_zero, Nat.add_zero] at first
        rw [if_neg (not_not.mpr right), ← savedWord, later, first]
        have conditions :
            (∀ sector, index + 1 ≤ sector → sector < sectors →
              word (patch record (lastWordAt sectorSize index) (savedWord seq record index))
                (lastWordAt sectorSize sector) = word record seq) ↔
              ∀ sector, index ≤ sector → sector < sectors →
                word record (lastWordAt sectorSize sector) = word record seq := by
          constructor
          · intro rest sector lower upper
            rcases Nat.eq_or_lt_of_le lower with rfl | above
            · exact right
            · rw [← mark sector above]
              exact rest sector above upper
          · intro all sector lower upper
            rw [mark sector lower]
            exact all sector (Nat.le_of_succ_le lower) upper
        have results :
            setLastWords sectorSize
                (savedWord seq
                  (patch record (lastWordAt sectorSize index) (savedWord seq record index)))
                count (index + 1)
                (patch record (lastWordAt sectorSize index) (savedWord seq record index)) =
              setLastWords sectorSize (savedWord seq record) (count + 1) index record := by
          rw [setLastWords]
          exact setLastWords_congr count fun sector _ upper => inArray (sector + 1) (by omega)
        rw [if_congr conditions rfl rfl, results]
      · rw [if_pos right, if_neg fun all => right (all index le_rfl here)]

/-! ## Protected records -/

theorem length_lastWord
    {sectors : Nat} {record : Bytes} (whole : record.length = sectors * sectorSize)
    {sector : Nat} (inside : sector < sectors) :
    (word record (lastWordAt sectorSize sector)).length = 2 := by
  refine length_slice ?_
  rw [whole]
  exact lastWordAt_inside wide inside

theorem length_updateSequenceArray
    {sectors : Nat} {usn record : Bytes} (number : usn.length = 2)
    (whole : record.length = sectors * sectorSize) :
    (updateSequenceArray sectorSize sectors usn record).length = 2 * (sectors + 1) := by
  have words : ∀ sector ∈ List.range sectors,
      (word record (lastWordAt sectorSize sector)).length = 2 := fun sector member =>
    length_lastWord wide whole (List.mem_range.mp member)
  rw [updateSequenceArray, List.length_append, number, List.length_flatMap,
    List.map_congr_left words, List.map_const', List.sum_replicate, List.length_range]
  simp only [smul_eq_mul]
  omega

theorem protect_spec
    {sectors seq : Nat} (array : ArrayInside sectorSize sectors seq)
    {usn record : Bytes} (number : usn.length = 2)
    (whole : record.length = sectors * sectorSize) :
    let stored := protect sectorSize sectors seq usn record
    stored.length = record.length ∧ word stored seq = usn ∧
      ∀ sector < sectors,
        word stored (lastWordAt sectorSize sector) = usn ∧
          savedWord seq stored sector = word record (lastWordAt sectorSize sector) := by
  have arrayLength := length_updateSequenceArray wide number whole
  have room := array.inside
  have fits : seq + (updateSequenceArray sectorSize sectors usn record).length ≤
      record.length := by omega
  have based := (length_patch fits).trans whole
  obtain ⟨length, marks, -⟩ :=
    setLastWords_spec wide (fun _ _ => number) sectors (Nat.zero_add sectors) based
  have inArray (index : Nat) (upper : index ≤ sectors) :
      word (protect sectorSize sectors seq usn record) (seq + 2 * index) =
        slice (updateSequenceArray sectorSize sectors usn record) (2 * index) 2 := by
    rw [word, protect, slice_setLastWords wide (fun _ _ => number) (Nat.zero_add sectors) based
      fun sector _ inside => ?_]
    · have whole' := slice_patch_self fits
      rw [arrayLength] at whole'
      have part := @slice_slice
        (patch record seq (updateSequenceArray sectorSize sectors usn record))
        seq (2 * (sectors + 1)) (2 * index) 2 (by omega)
      rw [← part, whole']
    · have apart := array.apart sector inside
      omega
  refine ⟨length.trans (length_patch fits), ?_, fun sector upper =>
    ⟨marks sector (Nat.zero_le _) upper, ?_⟩⟩
  · have first := inArray 0 (Nat.zero_le _)
    rw [Nat.mul_zero, Nat.add_zero] at first
    rw [first, updateSequenceArray, slice, List.drop_zero, List.take_left' number]
  · rw [savedWord, inArray (sector + 1) upper, updateSequenceArray,
      slice_behind number (by omega)]
    exact slice_flatMap_words
      (fun other member => length_lastWord wide whole (List.mem_range.mp member))
      (List.getElem?_range upper)

/-- Behind the header, and with sectors that end behind it, the array stays declared. -/
theorem declares_protect
    {sectors seq : Nat} (array : ArrayInside sectorSize sectors seq)
    (afterHeader : 8 ≤ seq) (headerInSector : 10 ≤ sectorSize)
    {usn record : Bytes} (number : usn.length = 2)
    (whole : record.length = sectors * sectorSize) (declares : Declares sectors seq record) :
    Declares sectors seq (protect sectorSize sectors seq usn record) := by
  have arrayLength := length_updateSequenceArray wide number whole
  have room := array.inside
  have fits : seq + (updateSequenceArray sectorSize sectors usn record).length ≤
      record.length := by omega
  have field {offset : Nat} (inHeader : offset + 2 ≤ 8) :
      word (protect sectorSize sectors seq usn record) offset = word record offset := by
    rw [word, protect, slice_setLastWords wide (fun _ _ => number) (Nat.zero_add sectors)
      ((length_patch fits).trans whole) fun sector _ _ => ?_,
      slice_patch_disjoint fits (Or.inl (inHeader.trans afterHeader))]
    · rfl
    · rw [lastWordAt]
      omega
  refine ⟨?_, ?_⟩
  · rw [updateSequenceArrayOffset, field (by decide)]
    exact declares.offset_eq
  · rw [updateSequenceArraySize, field (by decide)]
    exact declares.size_le

end LastWords

/--
`process_fixups` undoes the protection of a record, and it throws when a mark is
wrong or the declared array is too short.
-/
theorem processFixups_spec (sectorSize sectors : Nat) (wide : 2 < sectorSize) :
    (∀ (seq : Nat) (usn record : Bytes), usn.length = 2 →
      record.length = sectors * sectorSize → ArrayInside sectorSize sectors seq →
      Declares sectors seq (protect sectorSize sectors seq usn record) →
        ∃ result,
          processFixups (sectors * sectorSize) sectorSize
              (protect sectorSize sectors seq usn record) = .ok result ∧
            result.length = record.length ∧
            (∀ sector < sectors,
              word result (lastWordAt sectorSize sector) =
                word record (lastWordAt sectorSize sector)) ∧
            ∀ position, ¬ InLastWord sectorSize sectors position →
              result[position]? =
                (protect sectorSize sectors seq usn record)[position]?) ∧
    (∀ record : Bytes, record.length = sectors * sectorSize →
      ArrayInside sectorSize sectors (updateSequenceArrayOffset record) →
      (∃ sector < sectors,
        word record (lastWordAt sectorSize sector) ≠
          word record (updateSequenceArrayOffset record)) →
        ∃ error, processFixups (sectors * sectorSize) sectorSize record = .error error) ∧
    ∀ record : Bytes, updateSequenceArraySize record < sectors + 1 →
      ∃ error, processFixups (sectors * sectorSize) sectorSize record = .error error := by
  have counted : sectors * sectorSize / sectorSize = sectors :=
    Nat.mul_div_cancel _ (by omega)
  have multiple : ¬ sectors * sectorSize % sectorSize ≠ 0 := by
    rw [Nat.mul_mod_left]
    exact fun nonzero => nonzero rfl
  have wide' : 2 ≤ sectorSize := by omega
  refine ⟨fun seq usn record number whole array declares => ?_,
    fun record whole array wrong => ?_, fun record short => ?_⟩
  · obtain ⟨length, mark, words⟩ := protect_spec wide' array number whole
    have room := array.inside
    have saved : ∀ sector < sectors,
        (savedWord seq (protect sectorSize sectors seq usn record) sector).length = 2 :=
      fun sector upper => length_slice (by omega)
    obtain ⟨kept, restored, outside⟩ :=
      setLastWords_spec wide' saved sectors (Nat.zero_add sectors) (length.trans whole)
    refine ⟨_, ?_, kept.trans length, fun sector upper => ?_, fun position free => ?_⟩
    · rw [processFixups, if_neg multiple]
      simp only [counted]
      rw [if_neg (Nat.not_lt_of_le declares.size_le), declares.offset_eq,
        fixupLoop_eq wide' array sectors (Nat.zero_add sectors) (length.trans whole), if_pos]
      intro sector _ upper
      rw [(words sector upper).1, mark]
    · rw [restored sector (Nat.zero_le _) upper, (words sector upper).2]
    · refine outside position fun sector _ upper => ?_
      by_contra inside
      exact free ⟨sector, upper, by omega⟩
  · obtain ⟨sector, upper, different⟩ := wrong
    rw [processFixups, if_neg multiple]
    simp only [counted]
    split_ifs
    · exact ⟨_, rfl⟩
    · rw [fixupLoop_eq wide' array sectors (Nat.zero_add sectors) whole,
        if_neg fun all => different (all sector (Nat.zero_le _) upper)]
      exact ⟨_, rfl⟩
  · rw [processFixups, if_neg multiple]
    simp only [counted]
    rw [if_pos short]
    exact ⟨_, rfl⟩

/-- A record of one sector with an array of two words behind its header. -/
theorem processFixups_spec_small :
    let record : Bytes :=
      [0x46, 0x49, 0x4c, 0x45, 8, 0, 2, 0, 0, 0, 0, 0, 0, 0, 0xaa, 0xbb]
    ∃ result,
      processFixups (1 * 16) 16 (protect 16 1 8 [1, 0] record) = .ok result ∧
        word result 14 = [0xaa, 0xbb] := by
  have array : ArrayInside 16 1 8 := ⟨by decide, by decide⟩
  obtain ⟨result, restored, -, words, -⟩ :=
    (processFixups_spec 16 1 (by decide)).1 8 [1, 0]
      [0x46, 0x49, 0x4c, 0x45, 8, 0, 2, 0, 0, 0, 0, 0, 0, 0, 0xaa, 0xbb]
      rfl rfl array
      (declares_protect (by decide) array (by decide) (by decide) rfl rfl
        ⟨by decide, by decide⟩)
  exact ⟨result, restored, words 0 (by decide)⟩

end Ntfs2Btrfs
