import Ntfs2Btrfs.Lznt1

/-!
# Damaged LZNT1 streams

The decompression checks the lengths that a stream declares, but not that a back
reference stays inside the text of its chunk.  A stream whose references do can
be damaged in any other way: it is decompressed, or an exception is thrown, and
every access is a valid one.
-/

namespace Ntfs2Btrfs

open ByteStore
open BackReferences

/-! ## The references of a stream -/

/-- A back reference, with the number of bytes of the chunk before it. -/
structure PlacedReference where
  position : Nat
  displacement : Nat
deriving DecidableEq, Repr

/-- The reference starts in the text before it. -/
def PlacedReference.Inside (reference : PlacedReference) : Prop :=
  reference.displacement ≤ reference.position

instance PlacedReference.decidableInside (reference : PlacedReference) :
    Decidable reference.Inside :=
  inferInstanceAs (Decidable (_ ≤ _))

/-- The references met in a part of a stream, and what follows unless it is cut short. -/
abbrev Skim (α : Type) := List PlacedReference × Option α

/-- Skim a part and then what follows it. -/
def Skim.bind {α β : Type} (skim : Skim α) (next : α → Skim β) : Skim β :=
  match skim.2 with
  | none => (skim.1, none)
  | some found => (skim.1 ++ (next found).1, (next found).2)

/-- The references of a group: only the fields of the items are read. -/
def skimItems : Nat → Nat → Bytes → Nat → Skim (Bytes × Nat)
  | 0, _, data, position => ([], some (data, position))
  | _ + 1, _, [], position => ([], some ([], position))
  | count + 1, fg, first :: data, position =>
      if fg % 2 = 0 then skimItems count (fg / 2) data (position + 1)
      else
        match data with
        | [] => ([], none)
        | second :: data =>
            let fields := referenceFields position (unle [first, second])
            Skim.bind ([⟨position, fields.1⟩], some ()) fun _ =>
              skimItems count (fg / 2) data (position + fields.2)

/-- The references of a compressed chunk, and the length of its text. -/
def skimGroups : Nat → Bytes → Nat → Skim Nat
  | 0, _, position => ([], some position)
  | _ + 1, [], position => ([], some position)
  | turns + 1, fg :: data, position =>
      (skimItems 8 fg.toNat data position).bind fun rest => skimGroups turns rest.1 rest.2

/-- The references of the chunks that are needed to fill `size` bytes. -/
def skimStream (size : Nat) : Nat → Bytes → Nat → Skim Unit
  | 0, _, _ => ([], none)
  | turns + 1, compdata, ptr =>
      if compdata.length < 2 then ([], none)
      else
        let h := unle (compdata.take 2)
        let behind := compdata.drop 2
        let len := h % 0x1000 + 1
        if h = 0 then ([], some ())
        else if h / 0x1000 % 8 ≠ 3 then ([], none)
        else if behind.length < len then ([], none)
        else
          (if h / 0x8000 % 2 = 1 then skimGroups len (behind.take len) 0
            else ([], some len)).bind fun produced =>
              if size ≤ ptr + produced then ([], some ())
              else skimStream size turns (behind.drop len) (ptr + produced)

/-- The back references that are read to fill `size` bytes from a stream. -/
def streamReferences (compdata : Bytes) (size : Nat) : List PlacedReference :=
  (skimStream size compdata.length compdata 0).1

/-! ## Following a decompression -/

/-- The decompression returned, or it threw an exception. -/
def Lznt1Fault.IsThrown : Lznt1Fault → Prop
  | .thrown _ => True
  | _ => False

/--
A computation follows what was skimmed: with all references inside it ends as
foreseen, and with one outside it does something that is not defined.
-/
structure Follows
    {α β : Type} (skim : Skim α) (result : Except Lznt1Fault β) (relates : α → β → Prop) :
    Prop where
  inside : (∀ reference ∈ skim.1, reference.Inside) →
    match skim.2 with
    | none => ∃ fault, result = .error fault ∧ fault.IsThrown
    | some found => ∃ value, result = .ok value ∧ relates found value
  outside : (∃ reference ∈ skim.1, ¬ reference.Inside) →
    ∃ fault, result = .error fault ∧ ¬ fault.IsThrown

theorem follows_ok
    {α β : Type} {found : α} {value : β} {relates : α → β → Prop} (related : relates found value) :
    Follows ([], some found) (.ok value) relates :=
  ⟨fun _ => ⟨value, rfl, related⟩, fun ⟨_, member, _⟩ => absurd member List.not_mem_nil⟩

theorem follows_thrown
    {α β : Type} {relates : α → β → Prop} (error : Lznt1Error) :
    Follows (([], none) : Skim α) (.error (.thrown error) : Except Lznt1Fault β) relates :=
  ⟨fun _ => ⟨_, rfl, trivial⟩, fun ⟨_, member, _⟩ => absurd member List.not_mem_nil⟩

/-- One computation after another follows one part after another. -/
theorem Follows.bind
    {α β γ δ : Type} {skim : Skim α} {result : Except Lznt1Fault β} {relates : α → β → Prop}
    (first : Follows skim result relates)
    {next : α → Skim γ} {step : β → Except Lznt1Fault δ} {after : γ → δ → Prop}
    (later : ∀ found value, relates found value → Follows (next found) (step value) after) :
    Follows (skim.bind next) (result.bind step) after := by
  obtain ⟨references, ending⟩ := skim
  obtain ⟨inside, outside⟩ := first
  cases ending with
  | none =>
      refine ⟨fun all => ?_, fun some_ => ?_⟩
      · obtain ⟨fault, rfl, thrown⟩ := inside all
        exact ⟨fault, rfl, thrown⟩
      · obtain ⟨fault, rfl, undefined⟩ := outside some_
        exact ⟨fault, rfl, undefined⟩
  | some found =>
      by_cases all : ∀ reference ∈ references, reference.Inside
      · obtain ⟨value, rfl, related⟩ := inside all
        obtain ⟨nextInside, nextOutside⟩ := later found value related
        refine ⟨fun every => ?_, fun ⟨reference, member, out⟩ => ?_⟩
        · exact nextInside fun reference member => every reference (List.mem_append_right _ member)
        · rcases List.mem_append.mp member with early | late
          · exact absurd (all reference early) out
          · exact nextOutside ⟨reference, late, out⟩
      · have some_ : ∃ reference ∈ references, ¬ reference.Inside := by
          simpa using all
        obtain ⟨fault, rfl, undefined⟩ := outside some_
        refine ⟨fun every => ?_, fun _ => ⟨fault, rfl, undefined⟩⟩
        obtain ⟨reference, member, out⟩ := some_
        exact absurd (every reference (List.mem_append_left _ member)) out

/-! ## Lengths inside a chunk -/

/--
A chunk of at most 4096 stored bytes never gets long enough for the split to
wrap around: every byte that is left can add at most five bytes to the text,
once the text is longer than 4096 bytes.
-/
structure ShortText (data : Bytes) (position : Nat) : Prop where
  stored : data.length ≤ 4096
  bound : position + 5 * data.length ≤ 24594

theorem ShortText.le {data : Bytes} {position : Nat} (short : ShortText data position) :
    position ≤ 2 ^ 15 := by
  have bound := short.bound
  omega

theorem ShortText.flags
    {fg : UInt8} {data : Bytes} {position : Nat} (short : ShortText (fg :: data) position) :
    ShortText data position := by
  obtain ⟨stored, bound⟩ := short
  rw [List.length_cons] at stored bound
  exact ⟨by omega, by omega⟩

theorem ShortText.literal
    {first : UInt8} {data : Bytes} {position : Nat} (short : ShortText (first :: data) position) :
    ShortText data (position + 1) := by
  obtain ⟨stored, bound⟩ := short
  rw [List.length_cons] at stored bound
  exact ⟨by omega, by omega⟩

theorem position_add_two_pow_le {position : Nat} (near : position ≤ 4096) :
    position + 2 ^ lengthBits position ≤ 4112 := by
  have size := Nat.lt_size_self (position - 1)
  have narrow : (position - 1).size ≤ 12 := Nat.size_le.mpr (by omega)
  have wider : 2 ^ (position - 1).size ≤ 2 ^ displacementBits position :=
    Nat.pow_le_pow_right (by decide) (Nat.le_max_right 4 _)
  have four : 4 ≤ displacementBits position := Nat.le_max_left 4 _
  have twelve : displacementBits position ≤ 12 := Nat.max_le.mpr ⟨by decide, narrow⟩
  rw [lengthBits]
  generalize displacementBits position = bits at *
  have sum : 2 ^ bits + 2 ^ (16 - bits) ≤ 4112 := by
    interval_cases bits <;> decide
  omega

theorem two_pow_lengthBits_le {position : Nat} (far : 4096 < position) :
    2 ^ lengthBits position ≤ 2 ^ 3 := by
  have wide : 12 < (position - 1).size := Nat.lt_size.mpr (by omega)
  refine Nat.pow_le_pow_right (by decide) ?_
  rw [lengthBits, displacementBits]
  omega

/-- A reference close to the start can be long, and one far from it is short. -/
theorem ShortText.reference
    {first second : UInt8} {data : Bytes} {position : Nat}
    (short : ShortText (first :: second :: data) position) (v : Nat) :
    ShortText data (position + (referenceFields position v).2) := by
  obtain ⟨stored, bound⟩ := short
  rw [List.length_cons, List.length_cons] at stored bound
  have remainder := Nat.mod_lt v (Nat.two_pow_pos (lengthBits position))
  refine ⟨by omega, ?_⟩
  rw [referenceFields]
  simp only
  rcases Nat.lt_or_ge 4096 position with far | near
  · have few := two_pow_lengthBits_le far
    omega
  · have sum := position_add_two_pow_le near
    omega

/-! ## The decompression follows the references -/

/-- A reference is copied exactly when it starts in the text before it. -/
theorem follows_copyReference
    {s : Bytes} {position : Nat} (start : s.length = position) (small : position ≤ 2 ^ 15)
    (v : Nat) :
    Follows ([⟨position, (referenceFields position v).1⟩], some ()) (copyReference s v)
      fun _ longer => longer.length = position + (referenceFields position v).2 := by
  subst start
  have positive : 1 ≤ (referenceFields s.length v).1 := Nat.succ_pos _
  have long : 0 < (referenceFields s.length v).2 := Nat.succ_pos _
  refine ⟨fun all => ?_, fun some_ => ?_⟩
  · have inside : (referenceFields s.length v).1 ≤ s.length := all _ (List.mem_singleton_self _)
    obtain ⟨longer, copied⟩ := exists_copyBack positive (referenceFields s.length v).2 inside
    refine ⟨longer, ?_, length_copyBack _ copied⟩
    rw [copyReference_eq (positive.trans inside) small, copied]
  · have outside : s.length < (referenceFields s.length v).1 := by
      obtain ⟨reference, member, out⟩ := some_
      rw [List.mem_singleton.mp member] at out
      exact Nat.lt_of_not_le out
    rcases Nat.eq_zero_or_pos s.length with zero | later
    · obtain rfl : s = [] := List.length_eq_zero_iff.mp zero
      exact ⟨_, copyReference_nil v, id⟩
    · refine ⟨.badIndex, ?_, id⟩
      rw [copyReference_eq later small, copyBack_eq_none outside long]

/-- What is left of a chunk behind a group. -/
def GroupEnd (skimmed : Bytes × Nat) (left : Bytes × Bytes) : Prop :=
  left.1 = skimmed.1 ∧ left.2.length = skimmed.2 ∧ ShortText skimmed.1 skimmed.2

theorem follows_lznt1Items (count : Nat) :
    ∀ {fg position : Nat} {data s : Bytes}, s.length = position → ShortText data position →
      Follows (skimItems count fg data position) (lznt1Items count fg data s) GroupEnd := by
  induction count with
  | zero => exact fun start short => follows_ok ⟨rfl, start, short⟩
  | succ count induction =>
      intro fg position data s start short
      rcases data with _ | ⟨first, data⟩
      · exact follows_ok ⟨rfl, start, short⟩
      · by_cases literal : fg % 2 = 0
        · rw [lznt1Items_literal literal, skimItems.eq_def]
          simp only [if_pos literal]
          refine induction ?_ short.literal
          rw [List.length_append, start]
          rfl
        · have reference : fg % 2 = 1 := by omega
          rcases data with _ | ⟨second, data⟩
          · rw [lznt1Items_short reference, skimItems.eq_def]
            simp only [if_neg literal]
            exact follows_thrown _
          · rw [lznt1Items_reference reference, skimItems.eq_def]
            simp only [if_neg literal]
            refine (follows_copyReference start short.le _).bind fun _ longer grown => ?_
            exact induction grown (short.reference _)

theorem follows_lznt1Groups (turns : Nat) :
    ∀ {position : Nat} {data s : Bytes}, s.length = position → ShortText data position →
      Follows (skimGroups turns data position) (lznt1Groups turns data s)
        fun produced text => text.length = produced := by
  induction turns with
  | zero => exact fun start _ => follows_ok start
  | succ turns induction =>
      intro position data s start short
      rcases data with _ | ⟨fg, data⟩
      · exact follows_ok start
      · rw [lznt1Groups_cons]
        refine (follows_lznt1Items 8 start short.flags).bind fun rest left ended => ?_
        obtain ⟨sameData, length, restShort⟩ := ended
        rw [sameData]
        exact induction length restShort

theorem copyTo_eq
    {ret source : Bytes} {ptr count : Nat} (enough : count ≤ source.length)
    (room : ptr + count ≤ ret.length) :
    ∃ copied, copyTo ret ptr source count = .ok copied ∧ copied.length = ret.length := by
  refine ⟨_, if_pos ⟨enough, room⟩, length_patch ?_⟩
  rw [List.length_take, Nat.min_eq_left enough]
  exact room

/-- A whole decompression follows the references of the chunks that it needs. -/
theorem follows_lznt1Loop (size turns : Nat) :
    ∀ {compdata ret : Bytes} {ptr : Nat}, ret.length = size → ptr ≤ size →
      Follows (skimStream size turns compdata ptr) (lznt1Loop size turns compdata ret ptr)
        fun _ result => result.length = size := by
  induction turns with
  | zero => exact fun _ _ => follows_thrown _
  | succ turns induction =>
      intro compdata ret ptr whole inside
      rw [skimStream, lznt1Loop]
      simp only
      by_cases short : compdata.length < 2
      · rw [if_pos short, if_pos short]
        exact follows_thrown _
      rw [if_neg short, if_neg short]
      generalize unle (compdata.take 2) = h
      generalize compdata.drop 2 = behind
      by_cases zero : h = 0
      · rw [if_pos zero, if_pos zero]
        exact follows_ok whole
      rw [if_neg zero, if_neg zero]
      by_cases signature : h / 0x1000 % 8 ≠ 3
      · rw [if_pos signature, if_pos signature]
        exact follows_thrown _
      rw [if_neg signature, if_neg signature]
      by_cases cut : behind.length < h % 0x1000 + 1
      · rw [if_pos cut, if_pos cut]
        exact follows_thrown _
      rw [if_neg cut, if_neg cut]
      have length : (behind.take (h % 0x1000 + 1)).length = h % 0x1000 + 1 := by
        rw [List.length_take, Nat.min_eq_left (Nat.le_of_not_lt cut)]
      have chunk : Follows
          (if h / 0x8000 % 2 = 1 then
            skimGroups (h % 0x1000 + 1) (behind.take (h % 0x1000 + 1)) 0
            else ([], some (h % 0x1000 + 1)))
          (if h / 0x8000 % 2 = 1 then lznt1DecompressChunk (behind.take (h % 0x1000 + 1))
            else .ok (behind.take (h % 0x1000 + 1)))
          fun produced text => text.length = produced := by
        split_ifs
        · rw [lznt1DecompressChunk, length]
          exact follows_lznt1Groups _ rfl ⟨by omega, by omega⟩
        · exact follows_ok length
      refine chunk.bind fun produced text same => ?_
      rw [same]
      by_cases full : size ≤ ptr + produced
      · rw [if_pos full, if_pos full]
        obtain ⟨copied, copy, copiedLength⟩ :=
          @copyTo_eq ret text ptr (size - ptr) (by omega) (by omega)
        rw [copy]
        exact follows_ok (copiedLength.trans whole)
      · rw [if_neg full, if_neg full]
        obtain ⟨copied, copy, copiedLength⟩ :=
          @copyTo_eq ret text ptr produced same.ge (by omega)
        rw [copy]
        exact induction (copiedLength.trans whole) (by omega)

/--
The decompression returns exactly the requested number of bytes or throws,
without a bad shift, index or copy, exactly when every back reference that it
reads starts in the text of its chunk.
-/
theorem lznt1Decompress_safe_iff (compdata : Bytes) (size : Nat) :
    ((∃ result, lznt1Decompress compdata size = .ok result ∧ result.length = size) ∨
      ∃ error, lznt1Decompress compdata size = .error (.thrown error)) ↔
      ∀ reference ∈ streamReferences compdata size, reference.Inside := by
  have follows :
      Follows (skimStream size compdata.length compdata 0) (lznt1Decompress compdata size)
        fun _ result => result.length = size :=
    follows_lznt1Loop size compdata.length List.length_replicate (Nat.zero_le size)
  constructor
  · intro safe
    by_contra some_
    obtain ⟨fault, failed, undefined⟩ := follows.outside (by simpa [streamReferences] using some_)
    rcases safe with ⟨result, returned, -⟩ | ⟨error, thrown⟩
    · rw [failed] at returned
      cases returned
    · rw [failed] at thrown
      rw [Except.error.inj thrown] at undefined
      exact undefined trivial
  · intro all
    have ended := follows.inside all
    cases ending : (skimStream size compdata.length compdata 0).2 with
    | none =>
      rw [ending] at ended
      obtain ⟨fault, failed, thrown⟩ := ended
      cases fault with
      | thrown error => exact Or.inr ⟨error, failed⟩
      | badShift => exact thrown.elim
      | badIndex => exact thrown.elim
      | badCopy => exact thrown.elim
    | some _ =>
      rw [ending] at ended
      exact Or.inl ended

/-- A chunk that begins with a back reference. -/
theorem lznt1Decompress_badShift :
    lznt1Decompress [0x02, 0xb0, 0x01, 0x00, 0x00] 1 = .error .badShift ∧
      ¬ ((∃ result, lznt1Decompress [0x02, 0xb0, 0x01, 0x00, 0x00] 1 = .ok result ∧
          result.length = 1) ∨
        ∃ error, lznt1Decompress [0x02, 0xb0, 0x01, 0x00, 0x00] 1 = .error (.thrown error)) := by
  have failed : lznt1Decompress [0x02, 0xb0, 0x01, 0x00, 0x00] 1 = .error .badShift := by
    decide +kernel
  rw [failed]
  refine ⟨rfl, ?_⟩
  rintro (⟨result, returned, -⟩ | ⟨error, thrown⟩)
  · cases returned
  · cases thrown

end Ntfs2Btrfs
