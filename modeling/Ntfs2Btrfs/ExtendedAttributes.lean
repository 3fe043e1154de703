import Ntfs2Btrfs.WalkTermination

/-!
# Extended attributes

The value of an `EA` attribute is a chain of entries, each of which says how far
the next one is.  The loop of `add_inode` stores the name and the value of an
entry in a map, in which the first value of a name stays.  It compares the size of
an entry with the distance before it looks whether the distance is zero, so an
entry that ends the chain with a zero is taken for one that overflows.
-/

namespace Ntfs2Btrfs

open ByteStore

/-! ## The loop -/

/-- `offsetof(ea_data, EaName)`. -/
def eaNameOffset : Nat := 8

/-- `NextEntryOffset`. -/
def nextEntryOffset (sv : Bytes) : Walk Nat :=
  field sv 0 4

/-- `EaNameLength`. -/
def eaNameLength (sv : Bytes) : Walk Nat :=
  field sv 5 1

/-- `EaValueLength`. -/
def eaValueLength (sv : Bytes) : Walk Nat :=
  field sv 6 2

/-- What the user is warned of. -/
inductive EaWarning where
  | truncated (length expected : Nat)
  | beyond (next length : Nat)
  | overflow (nameLength valueLength next : Nat)
deriving DecidableEq, Repr

/-- The names and values that are stored, and the warnings. -/
structure EaState where
  eas : List (Bytes × Bytes)
  warnings : List EaWarning
deriving DecidableEq, Repr

/-- A name that is in the map keeps its value. -/
def EaState.emplace (state : EaState) (name value : Bytes) : EaState :=
  if (state.eas.lookup name).isSome then state
  else { state with eas := state.eas ++ [(name, value)] }

def EaState.warn (state : EaState) (warning : EaWarning) : EaState :=
  { state with warnings := state.warnings ++ [warning] }

/-- The loop over the entries, for a number of rounds. -/
def eaLoop : Nat → Bytes → EaState → Walk EaState
  | 0, _, _ => .error .running
  | rounds + 1, sv, state =>
      if sv.length < eaNameOffset then
        .ok (state.warn (.truncated sv.length eaNameOffset))
      else do
        let next ← nextEntryOffset sv
        if next > sv.length then .ok (state.warn (.beyond next sv.length))
        else
          let nameLength ← eaNameLength sv
          let valueLength ← eaValueLength sv
          if eaNameOffset + nameLength + 1 + valueLength > next then
            .ok (state.warn (.overflow nameLength valueLength next))
          else
            let name ← bytesAt sv eaNameOffset nameLength
            let value ← bytesAt sv (eaNameOffset + nameLength + 1) valueLength
            let state := state.emplace name value
            if next = 0 then .ok state
            else if sv.drop next = [] then .ok state
            else eaLoop rounds (sv.drop next) state

/-- The entries of a value are stored: every round that goes on takes bytes from it. -/
def readEas (sv : Bytes) (state : EaState) : Walk EaState :=
  eaLoop (sv.length + 1) sv state

/-! ## Reading any bytes -/

theorem field_of_le
    {buf : Bytes} {offset width : Nat} (inside : offset + width ≤ buf.length) :
    field buf offset width = .ok (unle (slice buf offset width)) :=
  if_pos inside

theorem bytesAt_of_le
    {buf : Bytes} {offset length : Nat} (inside : offset + length ≤ buf.length) :
    bytesAt buf offset length = .ok (slice buf offset length) :=
  if_pos inside

/-- The next entry of a value, as far as its header says. -/
def nextEntry (sv : Bytes) : Nat :=
  unle (slice sv 0 4)

/-- The name of the first entry. -/
def entryName (sv : Bytes) : Bytes :=
  slice sv eaNameOffset (unle (slice sv 5 1))

/-- The value of the first entry. -/
def entryValue (sv : Bytes) : Bytes :=
  slice sv (eaNameOffset + unle (slice sv 5 1) + 1) (unle (slice sv 6 2))

/-- The bytes that the first entry needs. -/
def entryNeeds (sv : Bytes) : Nat :=
  eaNameOffset + unle (slice sv 5 1) + 1 + unle (slice sv 6 2)

/-- One round: whatever the bytes are, it reads inside of them. -/
theorem eaLoop_succ (rounds : Nat) (sv : Bytes) (state : EaState) :
    eaLoop (rounds + 1) sv state =
      if sv.length < eaNameOffset then
        .ok (state.warn (.truncated sv.length eaNameOffset))
      else if nextEntry sv > sv.length then
        .ok (state.warn (.beyond (nextEntry sv) sv.length))
      else if entryNeeds sv > nextEntry sv then
        .ok (state.warn
          (.overflow (unle (slice sv 5 1)) (unle (slice sv 6 2)) (nextEntry sv)))
      else if sv.drop (nextEntry sv) = [] then
        .ok (state.emplace (entryName sv) (entryValue sv))
      else
        eaLoop rounds (sv.drop (nextEntry sv))
          (state.emplace (entryName sv) (entryValue sv)) := by
  rw [eaLoop]
  by_cases short : sv.length < eaNameOffset
  · rw [if_pos short, if_pos short]
  have header : 8 ≤ sv.length := Nat.le_of_not_lt short
  have next : nextEntryOffset sv = .ok (nextEntry sv) := field_of_le (by omega)
  have nameLength : eaNameLength sv = .ok (unle (slice sv 5 1)) := field_of_le (by omega)
  have valueLength : eaValueLength sv = .ok (unle (slice sv 6 2)) := field_of_le (by omega)
  rw [if_neg short, if_neg short, next, nameLength, valueLength]
  change (if nextEntry sv > sv.length then _ else
    if entryNeeds sv > nextEntry sv then _ else _) = _
  by_cases beyond : nextEntry sv > sv.length
  · rw [if_pos beyond, if_pos beyond]
  by_cases overflow : entryNeeds sv > nextEntry sv
  · rw [if_neg beyond, if_neg beyond, if_pos overflow, if_pos overflow]
  have needs : entryNeeds sv ≤ sv.length :=
    (Nat.le_of_not_lt overflow).trans (Nat.le_of_not_lt beyond)
  have positive : ¬ nextEntry sv = 0 := fun zero => overflow (by
    rw [zero]
    exact Nat.lt_of_lt_of_le (by decide : 0 < eaNameOffset) (by
      rw [entryNeeds]
      omega))
  have name : bytesAt sv eaNameOffset (unle (slice sv 5 1)) = .ok (entryName sv) :=
    bytesAt_of_le (by rw [entryNeeds] at needs; omega)
  have value :
      bytesAt sv (eaNameOffset + unle (slice sv 5 1) + 1) (unle (slice sv 6 2)) =
        .ok (entryValue sv) :=
    bytesAt_of_le needs
  rw [if_neg beyond, if_neg beyond, if_neg overflow, if_neg overflow, name, value]
  change (if nextEntry sv = 0 then _ else _) = _
  rw [if_neg positive]

theorem eaLoop_ok
    (rounds : Nat) :
    ∀ {sv : Bytes} (state : EaState), sv.length < rounds →
      ∃ result, eaLoop rounds sv state = .ok result := by
  induction rounds with
  | zero => exact fun _ short => absurd short (Nat.not_lt_zero _)
  | succ rounds ih =>
    intro sv state short
    rw [eaLoop_succ]
    split_ifs with header beyond overflow last
    · exact ⟨_, rfl⟩
    · exact ⟨_, rfl⟩
    · exact ⟨_, rfl⟩
    · exact ⟨_, rfl⟩
    · refine ih _ ?_
      have positive : 0 < entryNeeds sv := by
        rw [entryNeeds, eaNameOffset]
        omega
      rw [List.length_drop]
      rw [eaNameOffset] at header
      omega

/-! ## Chains of entries -/

/-- An entry whose lengths fit in their fields. -/
structure EaEntry where
  flags : UInt8
  name : Bytes
  terminator : UInt8
  value : Bytes
  padding : Bytes
  nameFits : name.length < 256 ^ 1
  valueFits : value.length < 256 ^ 2
  sizeFits : eaNameOffset + name.length + 1 + value.length + padding.length < 256 ^ 4

namespace EaEntry

def size (entry : EaEntry) : Nat :=
  eaNameOffset + entry.name.length + 1 + entry.value.length + entry.padding.length

/-- The bytes of an entry that says how far the next one is. -/
def encode (entry : EaEntry) (next : Nat) : Bytes :=
  le 4 next ++ ([entry.flags] ++ (le 1 entry.name.length ++ (le 2 entry.value.length ++
    (entry.name ++ ([entry.terminator] ++ (entry.value ++ entry.padding))))))

theorem length_encode (entry : EaEntry) (next : Nat) :
    (entry.encode next).length = entry.size := by
  simp only [encode, List.length_append, length_le, List.length_singleton, size,
    eaNameOffset]
  omega

end EaEntry

section Encoded

variable (entry : EaEntry) {next : Nat} (rest : Bytes)

theorem nextEntry_encode (fits : next < 256 ^ 4) :
    nextEntry (entry.encode next ++ rest) = next := by
  rw [nextEntry, EaEntry.encode, List.append_assoc, slice_first _ (length_le 4 next),
    unle_le_of_lt fits]

theorem nameLength_encode :
    unle (slice (entry.encode next ++ rest) 5 1) = entry.name.length := by
  simp only [EaEntry.encode, List.append_assoc]
  rw [slice_behind (length_le 4 next) (by omega), slice_behind rfl (by simp)]
  exact (congrArg unle (slice_first _ (length_le 1 _))).trans
    (unle_le_of_lt entry.nameFits)

theorem valueLength_encode :
    unle (slice (entry.encode next ++ rest) 6 2) = entry.value.length := by
  simp only [EaEntry.encode, List.append_assoc]
  rw [slice_behind (length_le 4 next) (by omega), slice_behind rfl (by simp),
    slice_behind (length_le 1 _) (by simp)]
  exact (congrArg unle (slice_first _ (length_le 2 _))).trans
    (unle_le_of_lt entry.valueFits)

theorem entryName_encode :
    entryName (entry.encode next ++ rest) = entry.name := by
  rw [entryName, nameLength_encode, eaNameOffset]
  simp only [EaEntry.encode, List.append_assoc]
  rw [slice_behind (length_le 4 next) (by omega), slice_behind rfl (by simp),
    slice_behind (length_le 1 _) (by simp), slice_behind (length_le 2 _) (by simp)]
  exact slice_first _ rfl

theorem entryValue_encode :
    entryValue (entry.encode next ++ rest) = entry.value := by
  rw [entryValue, nameLength_encode, valueLength_encode, eaNameOffset]
  simp only [EaEntry.encode, List.append_assoc]
  rw [slice_behind (length_le 4 next) (by omega), slice_behind rfl (by simp; omega),
    slice_behind (length_le 1 _) (by simp; omega),
    slice_behind (length_le 2 _) (by simp; omega), slice_behind rfl (by simp; omega),
    slice_behind rfl (by simp; omega)]
  have start : 8 + entry.name.length + 1 - 4 - [entry.flags].length - 1 - 2 -
      entry.name.length - [entry.terminator].length = 0 := by
    simp only [List.length_singleton]
    omega
  rw [start]
  exact slice_first _ rfl

theorem entryNeeds_encode :
    entryNeeds (entry.encode next ++ rest) =
      eaNameOffset + entry.name.length + 1 + entry.value.length := by
  rw [entryNeeds, nameLength_encode, valueLength_encode]

end Encoded

/-- The first entry of a chain is stored, and the loop goes on behind it. -/
theorem eaLoop_encode
    (rounds : Nat) (entry : EaEntry) (rest : Bytes) (state : EaState) :
    eaLoop (rounds + 1) (entry.encode entry.size ++ rest) state =
      if rest = [] then .ok (state.emplace entry.name entry.value)
      else eaLoop rounds rest (state.emplace entry.name entry.value) := by
  have length := entry.length_encode entry.size
  have dropped : (entry.encode entry.size ++ rest).drop entry.size = rest :=
    List.drop_left' length
  have fits : entry.size < 256 ^ 4 := entry.sizeFits
  have long : eaNameOffset ≤ entry.size := by
    rw [EaEntry.size]
    omega
  have needs : eaNameOffset + entry.name.length + 1 + entry.value.length ≤ entry.size :=
    Nat.le_add_right _ _
  rw [eaLoop_succ, nextEntry_encode entry rest fits, entryNeeds_encode,
    entryName_encode, entryValue_encode, dropped, List.length_append, length,
    if_neg (Nat.not_lt.mpr (Nat.le_add_right_of_le long)),
    if_neg (Nat.not_lt.mpr (Nat.le_add_right _ _)), if_neg (Nat.not_lt.mpr needs)]

/-- An entry with a zero for its distance is taken for one that overflows. -/
theorem eaLoop_encode_zero
    (rounds : Nat) (entry : EaEntry) (state : EaState) :
    eaLoop (rounds + 1) (entry.encode 0) state =
      .ok (state.warn (.overflow entry.name.length entry.value.length 0)) := by
  have length := entry.length_encode 0
  have long : eaNameOffset ≤ entry.size := by
    rw [EaEntry.size]
    omega
  have whole : entry.encode 0 = entry.encode 0 ++ [] := (List.append_nil _).symm
  have needs : 0 < eaNameOffset + entry.name.length + 1 + entry.value.length := by omega
  rw [eaLoop_succ, whole, nextEntry_encode entry [] (by decide), entryNeeds_encode,
    nameLength_encode, valueLength_encode, ← whole, length,
    if_neg (Nat.not_lt.mpr long), if_neg (Nat.not_lt_zero _), if_pos needs]

/-- A chain of entries: the last one has a zero for its distance, or reaches the end. -/
def encodeEas (endsInZero : Bool) : List EaEntry → Bytes
  | [] => []
  | [entry] => entry.encode (if endsInZero then 0 else entry.size)
  | entry :: next :: rest => entry.encode entry.size ++ encodeEas endsInZero (next :: rest)

theorem length_le_encodeEas (endsInZero : Bool) (entries : List EaEntry) :
    entries.length ≤ (encodeEas endsInZero entries).length := by
  fun_induction encodeEas endsInZero entries with
  | case1 => exact le_rfl
  | case2 entry =>
    rw [EaEntry.length_encode, EaEntry.size, eaNameOffset, List.length_singleton]
    omega
  | case3 entry next rest ih =>
    rw [List.length_append, EaEntry.length_encode, EaEntry.size, eaNameOffset,
      List.length_cons]
    omega

/-- The entries of a chain that the loop stores. -/
def storedEntries (endsInZero : Bool) (entries : List EaEntry) : List EaEntry :=
  if endsInZero then entries.dropLast else entries

/-- Store entries one after the other. -/
def EaState.emplaceAll (state : EaState) (entries : List EaEntry) : EaState :=
  entries.foldl (fun state entry => state.emplace entry.name entry.value) state

/-- The names and values after a whole chain. -/
theorem eaLoop_encodeEas
    (endsInZero : Bool) (entries : List EaEntry) :
    ∀ (rounds : Nat) (state : EaState), entries.length < rounds →
      ∃ result, eaLoop rounds (encodeEas endsInZero entries) state = .ok result ∧
        result.eas = (state.emplaceAll (storedEntries endsInZero entries)).eas := by
  fun_induction encodeEas endsInZero entries with
  | case1 =>
    intro rounds state enough
    obtain ⟨rounds, rfl⟩ := Nat.exists_eq_succ_of_ne_zero (Nat.ne_of_gt enough)
    rw [Nat.succ_eq_add_one, eaLoop_succ, if_pos (by decide)]
    exact ⟨_, rfl, by cases endsInZero <;> rfl⟩
  | case2 entry =>
    intro rounds state enough
    obtain ⟨rounds, rfl⟩ := Nat.exists_eq_succ_of_ne_zero (by omega : rounds ≠ 0)
    cases endsInZero with
    | true => exact ⟨_, eaLoop_encode_zero rounds entry state, rfl⟩
    | false =>
      have whole := eaLoop_encode rounds entry [] state
      rw [List.append_nil, if_pos rfl] at whole
      exact ⟨_, whole, rfl⟩
  | case3 entry next rest ih =>
    intro rounds state enough
    obtain ⟨rounds, rfl⟩ := Nat.exists_eq_succ_of_ne_zero (by omega : rounds ≠ 0)
    have nonempty : encodeEas endsInZero (next :: rest) ≠ [] :=
      List.ne_nil_of_length_pos
        (Nat.lt_of_lt_of_le (Nat.succ_pos _) (length_le_encodeEas endsInZero (next :: rest)))
    rw [Nat.succ_eq_add_one, eaLoop_encode, if_neg nonempty]
    obtain ⟨result, ran, eas⟩ := ih rounds (state.emplace entry.name entry.value)
      (Nat.lt_of_succ_lt_succ enough)
    refine ⟨result, ran, eas.trans ?_⟩
    cases endsInZero <;> rfl

/-! ## What is stored -/

/-- The map of names and values, with the first value of every name. -/
def entryValues (entries : List EaEntry) : List (Bytes × Bytes) :=
  entries.map fun entry => (entry.name, entry.value)

theorem lookup_emplace (state : EaState) (name value other : Bytes) :
    (state.emplace name value).eas.lookup other =
      (state.eas ++ [(name, value)]).lookup other := by
  rw [EaState.emplace]
  split_ifs with present
  · obtain ⟨kept, found⟩ := Option.isSome_iff_exists.mp present
    rw [List.lookup_append, List.lookup_singleton]
    split_ifs with same
    · rw [eq_of_beq same, found]
      rfl
    · exact (Option.or_none).symm
  · rfl

theorem lookup_emplaceAll
    (entries : List EaEntry) (other : Bytes) :
    ∀ state : EaState,
      (state.emplaceAll entries).eas.lookup other =
        (state.eas ++ entryValues entries).lookup other := by
  induction entries with
  | nil =>
    intro state
    rw [entryValues, List.map_nil, List.append_nil]
    rfl
  | cons entry rest ih =>
    intro state
    have step := ih (state.emplace entry.name entry.value)
    rw [List.lookup_append, lookup_emplace, ← List.lookup_append, List.append_assoc] at step
    exact step

/-- The loop has stored the name and the value of every entry. -/
def StoresAll (entries : List EaEntry) (state : EaState) : Prop :=
  ∀ entry ∈ entries, state.eas.lookup entry.name = some entry.value

/--
Every name has one value, and the entry that ends the chain with a zero repeats an
earlier one.
-/
def Storable (endsInZero : Bool) (entries : List EaEntry) : Prop :=
  (∀ entry ∈ entries, ∀ other ∈ entries,
    entry.name = other.name → entry.value = other.value) ∧
  (endsInZero = true → ∀ last ∈ entries.getLast?,
    ∃ entry ∈ entries.dropLast, entry.name = last.name)

theorem mem_storedEntries
    {endsInZero : Bool} {entries : List EaEntry} {entry : EaEntry}
    (member : entry ∈ storedEntries endsInZero entries) : entry ∈ entries := by
  cases endsInZero with
  | true => exact List.mem_of_mem_dropLast member
  | false => exact member

/-- A name has a stored value, and it is the one of a stored entry. -/
theorem lookup_entryValues_eq_some
    {entries : List EaEntry} {name value : Bytes}
    (found : (entryValues entries).lookup name = some value) :
    ∃ entry ∈ entries, entry.name = name ∧ entry.value = value := by
  obtain ⟨front, back, equal, -⟩ := List.lookup_eq_some_iff.mp found
  have member : (name, value) ∈ entryValues entries := by
    rw [equal]
    simp
  obtain ⟨entry, among, same⟩ := List.mem_map.mp member
  exact ⟨entry, among, congrArg Prod.fst same, congrArg Prod.snd same⟩

theorem exists_lookup_entryValues
    {entries : List EaEntry} {entry : EaEntry} (member : entry ∈ entries) :
    ∃ value, (entryValues entries).lookup entry.name = some value := by
  refine Option.isSome_iff_exists.mp (List.lookup_isSome_iff.mpr ?_)
  exact ⟨_, List.mem_map_of_mem member, BEq.rfl⟩

theorem lookup_stored_iff (endsInZero : Bool) (entries : List EaEntry) :
    (∀ entry ∈ entries,
      (entryValues (storedEntries endsInZero entries)).lookup entry.name =
        some entry.value) ↔
      Storable endsInZero entries := by
  constructor
  · intro stored
    refine ⟨fun entry member other member' same => ?_, fun zero last isLast => ?_⟩
    · have value := stored entry member
      rw [same, stored other member'] at value
      exact (Option.some.inj value).symm
    · obtain ⟨entry, among, same, -⟩ :=
        lookup_entryValues_eq_some (stored last (List.mem_of_mem_getLast? isLast))
      rw [storedEntries, if_pos zero] at among
      exact ⟨entry, among, same⟩
  · rintro ⟨single, repeats⟩ entry member
    have among : ∃ other ∈ storedEntries endsInZero entries, other.name = entry.name := by
      cases endsInZero with
      | false => exact ⟨entry, member, rfl⟩
      | true =>
        rcases List.eq_nil_or_concat entries with rfl | ⟨front, last, rfl⟩
        · exact absurd member List.not_mem_nil
        rw [List.concat_eq_append] at member repeats ⊢
        rw [storedEntries, if_pos rfl]
        rcases List.mem_append.mp member with early | late
        · exact ⟨entry, by rwa [List.dropLast_concat], rfl⟩
        · obtain rfl := List.mem_singleton.mp late
          exact repeats rfl entry (by simp)
    obtain ⟨other, stored, same⟩ := among
    obtain ⟨value, found⟩ := exists_lookup_entryValues stored
    obtain ⟨source, source', name, rfl⟩ := lookup_entryValues_eq_some found
    rw [same] at name found
    rw [found, single source (mem_storedEntries source') entry member name]

/--
The loop stores every entry of a chain exactly when it is storable.  It ends, and
reads inside the buffer, on any bytes.
-/
theorem readEas_stores_iff (endsInZero : Bool) (entries : List EaEntry) :
    ((∃ state, readEas (encodeEas endsInZero entries) ⟨[], []⟩ = .ok state ∧
      StoresAll entries state) ↔ Storable endsInZero entries) ∧
    ∀ (sv : Bytes) (state : EaState), ∃ result, readEas sv state = .ok result := by
  refine ⟨?_, fun sv state => eaLoop_ok _ state (Nat.lt_succ_self _)⟩
  obtain ⟨result, ran, eas⟩ :=
    eaLoop_encodeEas endsInZero entries _ ⟨[], []⟩
      (Nat.lt_succ_of_le (length_le_encodeEas endsInZero entries))
  rw [← lookup_stored_iff, readEas, ran]
  have lookups (name : Bytes) :
      result.eas.lookup name =
        (entryValues (storedEntries endsInZero entries)).lookup name := by
    rw [eas, lookup_emplaceAll]
    rfl
  constructor
  · rintro ⟨state, same, stores⟩ entry member
    obtain rfl := Except.ok.inj same
    rw [← lookups, stores entry member]
  · intro stored
    refine ⟨result, rfl, fun entry member => ?_⟩
    rw [lookups, stored entry member]

/-- The only entry of a file of WSL: the name `$LXUID` and a value of four bytes. -/
def lxUid : EaEntry where
  flags := 0
  name := [0x24, 0x4c, 0x58, 0x55, 0x49, 0x44]
  terminator := 0
  value := [0xe8, 3, 0, 0]
  padding := []
  nameFits := by decide
  valueFits := by decide
  sizeFits := by decide

/-- The entry is lost when it ends the chain with a zero. -/
theorem readEas_loses_last :
    readEas (encodeEas true [lxUid]) ⟨[], []⟩ = .ok ⟨[], [.overflow 6 4 0]⟩ ∧
      ¬ ∃ state, readEas (encodeEas true [lxUid]) ⟨[], []⟩ = .ok state ∧
        StoresAll [lxUid] state := by
  have ran : readEas (encodeEas true [lxUid]) ⟨[], []⟩ = .ok ⟨[], [.overflow 6 4 0]⟩ := by
    decide +kernel
  refine ⟨ran, ?_⟩
  rintro ⟨state, same, stores⟩
  rw [ran] at same
  obtain rfl := Except.ok.inj same
  exact absurd (stores lxUid List.mem_cons_self) (by decide)

end Ntfs2Btrfs
