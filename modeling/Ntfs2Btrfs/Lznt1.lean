import Ntfs2Btrfs.Basic
import Ntfs2Btrfs.Lib.ByteStore
import Ntfs2Btrfs.Lib.BackReferences
import Mathlib.Data.Nat.Size

/-!
# LZNT1

A compressed file is stored as chunks, each of them raw or compressed on its
own.  A compressed chunk is a sequence of groups of eight items behind a byte of
flags; an item is a byte, or a back reference into the text of the chunk.  The
two fields of a reference share sixteen bits, and where they are split depends
on the number of bytes before it.
-/

namespace Ntfs2Btrfs

open ByteStore
open BackReferences

/-! ## The code -/

/-- What the decompression throws. -/
inductive Lznt1Error where
  | chunkLength (length : Nat)
  | streamLength (length expected : Nat)
  | signature (sig : Nat)
deriving DecidableEq, Repr

/-- How a decompression fails: with an exception, or by an access the language does not define. -/
inductive Lznt1Fault where
  | thrown (error : Lznt1Error)
  | badShift
  | badIndex
  | badCopy
deriving DecidableEq, Repr

/-- The loop that splits the two fields of a reference, with a bound on its turns. -/
def splitLoop : Nat → Nat → Nat → Nat → Nat × Nat
  | 0, _, lm, os => (lm, os)
  | turns + 1, u, lm, os =>
      if 0x10 ≤ u then
        splitLoop turns (u / 2) (lm / 2) ((os + wordModulus - 1) % wordModulus)
      else (lm, os)

/-- The mask of the length, and the shift of the displacement. -/
def splitFields (size : Nat) : Nat × Nat :=
  splitLoop 64 ((size + wordModulus - 1) % wordModulus) 0xfff 12

/-- A back reference of `lznt1_decompress_chunk`. -/
def copyReference (s : Bytes) (v : Nat) : Except Lznt1Fault Bytes :=
  let fields := splitFields s.length
  if 32 ≤ fields.2 then .error .badShift
  else
    match copyBack ((v >>> fields.2) + 1) ((v &&& fields.1) + 3) s with
    | some longer => .ok longer
    | none => .error .badIndex

/-- The items of a group: what is left of the data, and the text. -/
def lznt1Items : Nat → Nat → Bytes → Bytes → Except Lznt1Fault (Bytes × Bytes)
  | 0, _, data, s => .ok (data, s)
  | _ + 1, _, [], s => .ok ([], s)
  | count + 1, fg, first :: data, s =>
      if fg % 2 = 0 then lznt1Items count (fg / 2) data (s ++ [first])
      else
        match data with
        | [] => .error (.thrown (.chunkLength 1))
        | second :: data =>
            (copyReference s (unle [first, second])).bind fun longer =>
              lznt1Items count (fg / 2) data longer

/-- The groups of a chunk, with a bound on their number. -/
def lznt1Groups : Nat → Bytes → Bytes → Except Lznt1Fault Bytes
  | 0, _, s => .ok s
  | _ + 1, [], s => .ok s
  | turns + 1, fg :: data, s =>
      if fg = 0 then
        if data.length < 8 then .ok (s ++ data)
        else lznt1Groups turns (data.drop 8) (s ++ data.take 8)
      else
        (lznt1Items 8 fg.toNat data s).bind fun rest => lznt1Groups turns rest.1 rest.2

/-- `lznt1_decompress_chunk`. -/
def lznt1DecompressChunk (data : Bytes) : Except Lznt1Fault Bytes :=
  lznt1Groups data.length data []

/-- `memcpy` to a place in the result. -/
def copyTo (ret : Bytes) (ptr : Nat) (source : Bytes) (count : Nat) : Except Lznt1Fault Bytes :=
  if count ≤ source.length ∧ ptr + count ≤ ret.length then
    .ok (patch ret ptr (source.take count))
  else .error .badCopy

/-- The loop of `lznt1_decompress`, with a bound on the number of chunks. -/
def lznt1Loop (size : Nat) : Nat → Bytes → Bytes → Nat → Except Lznt1Fault Bytes
  | 0, compdata, _, _ => .error (.thrown (.streamLength compdata.length 2))
  | turns + 1, compdata, ret, ptr =>
      if compdata.length < 2 then .error (.thrown (.streamLength compdata.length 2))
      else
        let h := unle (compdata.take 2)
        let behind := compdata.drop 2
        let sig := h / 0x1000 % 8
        let len := h % 0x1000 + 1
        if h = 0 then .ok ret
        else if sig ≠ 3 then .error (.thrown (.signature sig))
        else if behind.length < len then
          .error (.thrown (.streamLength behind.length len))
        else
          let data := behind.take len
          (if h / 0x8000 % 2 = 1 then lznt1DecompressChunk data else .ok data).bind fun c =>
            if size ≤ ptr + c.length then copyTo ret ptr c (size - ptr)
            else
              (copyTo ret ptr c c.length).bind fun ret =>
                lznt1Loop size turns (behind.drop len) ret (ptr + c.length)

/-- `lznt1_decompress`. -/
def lznt1Decompress (compdata : Bytes) (size : Nat) : Except Lznt1Fault Bytes :=
  lznt1Loop size compdata.length compdata (List.replicate size 0) 0

/-! ## The fields of a reference -/

/-- The displacement gets as many bits as the greatest one needs, and at least four. -/
def displacementBits (position : Nat) : Nat :=
  max 4 (position - 1).size

/-- The length gets the bits that are left. -/
def lengthBits (position : Nat) : Nat :=
  16 - displacementBits position

theorem size_div_two {number : Nat} (positive : 0 < number) :
    (number / 2).size + 1 = number.size := by
  refine le_antisymm ?_ ?_
  · refine Nat.succ_le_of_lt (Nat.lt_size.mpr ?_)
    cases bits : (number / 2).size with
    | zero => exact positive
    | succ count =>
      have half : 2 ^ count ≤ number / 2 := Nat.lt_size.mp (by omega)
      have split := Nat.div_add_mod number 2
      rw [pow_succ]
      omega
  · refine Nat.size_le.mpr ?_
    have bits := Nat.lt_size_self (number / 2)
    have split := Nat.div_add_mod number 2
    rw [pow_succ]
    omega

theorem splitLoop_eq (turns : Nat) :
    ∀ {u os : Nat}, u.size ≤ turns + 4 → u.size ≤ os + 4 → os ≤ 12 →
      splitLoop turns u (2 ^ os - 1) os =
        (2 ^ (os + 4 - max 4 u.size) - 1, os + 4 - max 4 u.size) := by
  induction turns with
  | zero =>
      intro u os enough _ _
      rw [splitLoop, Nat.max_eq_left (by omega), Nat.add_sub_cancel]
  | succ turns induction =>
      intro u os enough room small
      rw [splitLoop]
      by_cases large : 0x10 ≤ u
      · have wide : 4 < u.size := Nat.lt_size.mpr large
        have halved : (u / 2).size + 1 = u.size := size_div_two (by omega)
        have mask : (2 ^ os - 1) / 2 = 2 ^ (os - 1) - 1 := by
          obtain ⟨less, rfl⟩ : ∃ less, os = less + 1 := ⟨os - 1, by omega⟩
          rw [Nat.add_sub_cancel, pow_succ]
          omega
        have shift : (os + wordModulus - 1) % wordModulus = os - 1 := by
          rw [wordModulus]
          omega
        have next : os - 1 + 4 - max 4 (u / 2).size = os + 4 - max 4 u.size := by omega
        rw [if_pos large, mask, shift, induction (by omega) (by omega) (by omega), next]
      · have narrow : u.size ≤ 4 := Nat.size_le.mpr (Nat.lt_of_not_le large)
        rw [if_neg large, Nat.max_eq_left narrow, Nat.add_sub_cancel]

/-- Inside a chunk the loop of the code splits the fields as the format does. -/
theorem splitFields_eq
    {size : Nat} (positive : 1 ≤ size) (small : size ≤ 2 ^ 15) :
    splitFields size = (2 ^ lengthBits size - 1, lengthBits size) := by
  have previous : (size + wordModulus - 1) % wordModulus = size - 1 := by
    rw [wordModulus]
    omega
  have narrow : (size - 1).size ≤ 15 := Nat.size_le.mpr (by omega)
  have full : (0xfff : Nat) = 2 ^ 12 - 1 := by norm_num
  have loop := @splitLoop_eq 64 (size - 1) 12 (by omega) (by omega) le_rfl
  rw [splitFields, previous, full, loop, lengthBits, displacementBits]

/-- The displacement and the length that a reference at a position stands for. -/
def referenceFields (position v : Nat) : Nat × Nat :=
  (v / 2 ^ lengthBits position + 1, v % 2 ^ lengthBits position + 3)

theorem lengthBits_le (position : Nat) : lengthBits position ≤ 12 := by
  rw [lengthBits, displacementBits]
  omega

/-- Inside a chunk a reference copies what its fields say. -/
theorem copyReference_eq
    {s : Bytes} (positive : 1 ≤ s.length) (small : s.length ≤ 2 ^ 15) (v : Nat) :
    copyReference s v =
      match copyBack (referenceFields s.length v).1 (referenceFields s.length v).2 s with
      | some longer => .ok longer
      | none => .error .badIndex := by
  have bits := lengthBits_le s.length
  rw [copyReference, splitFields_eq positive small]
  simp only [Nat.shiftRight_eq_div_pow, Nat.and_two_pow_sub_one_eq_mod]
  rw [if_neg (by omega), referenceFields]

/-- A chunk that begins with a reference is split by a shift that has wrapped around. -/
theorem copyReference_nil (v : Nat) : copyReference [] v = .error .badShift := by
  have fields : splitFields ([] : Bytes).length = (0, 2 ^ 64 - 48) := by
    decide +kernel
  rw [copyReference, fields]
  exact if_pos (by decide)

section Items

variable {count fg : Nat} {first second : UInt8} {data s : Bytes}

theorem lznt1Items_literal (literal : fg % 2 = 0) :
    lznt1Items (count + 1) fg (first :: data) s =
      lznt1Items count (fg / 2) data (s ++ [first]) := by
  cases data <;> exact if_pos literal

theorem lznt1Items_reference (reference : fg % 2 = 1) :
    lznt1Items (count + 1) fg (first :: second :: data) s =
      (copyReference s (unle [first, second])).bind fun longer =>
        lznt1Items count (fg / 2) data longer :=
  if_neg (by omega)

theorem lznt1Items_short (reference : fg % 2 = 1) :
    lznt1Items (count + 1) fg [first] s = .error (.thrown (.chunkLength 1)) :=
  if_neg (by omega)

end Items

/-- The fast path for the flag byte 0 does what the loop over the items does. -/
theorem lznt1Items_zero (count : Nat) :
    ∀ data s : Bytes, lznt1Items count 0 data s = .ok (data.drop count, s ++ data.take count) := by
  induction count with
  | zero => simp [lznt1Items]
  | succ count induction =>
      intro data s
      cases data with
      | nil => simp [lznt1Items]
      | cons first rest =>
          rw [lznt1Items_literal rfl, Nat.zero_div, induction]
          simp

theorem lznt1Groups_nil (turns : Nat) (s : Bytes) : lznt1Groups turns [] s = .ok s := by
  cases turns <;> rfl

/-- A turn of the loop over the groups, whatever the flags are. -/
theorem lznt1Groups_cons (turns : Nat) (fg : UInt8) (data s : Bytes) :
    lznt1Groups (turns + 1) (fg :: data) s =
      (lznt1Items 8 fg.toNat data s).bind fun rest => lznt1Groups turns rest.1 rest.2 := by
  rw [lznt1Groups]
  split_ifs with zero short
  · have all : data.length ≤ 8 := Nat.le_of_lt short
    rw [zero, UInt8.toNat_zero, lznt1Items_zero, List.drop_eq_nil_of_le all,
      List.take_of_length_le all]
    exact (lznt1Groups_nil turns _).symm
  · rw [zero, UInt8.toNat_zero, lznt1Items_zero]
    rfl
  · rfl

/-! ## Encodings -/

/-- The two fields of a token fit the split for its position. -/
def TokenFits (position : Nat) : Token UInt8 → Prop
  | .literal _ => True
  | .reference displacement length =>
      1 ≤ displacement ∧ displacement ≤ position ∧
        3 ≤ length ∧ length - 3 < 2 ^ lengthBits position

/-- A token as it is stored at a position. -/
def encodeToken (position : Nat) : Token UInt8 → Bytes
  | .literal byte => [byte]
  | .reference displacement length =>
      le 2 ((displacement - 1) * 2 ^ lengthBits position + (length - 3))

/-- Every token of a sequence fits where it stands. -/
def TokensFit : Nat → List (Token UInt8) → Prop
  | _, [] => True
  | position, token :: rest =>
      TokenFits position token ∧ TokensFit (position + token.extent) rest

/-- A sequence of tokens as it is stored, without flags. -/
def encodeItems : Nat → List (Token UInt8) → Bytes
  | _, [] => []
  | position, token :: rest =>
      encodeToken position token ++ encodeItems (position + token.extent) rest

/-- The flag byte tells which items are references; flags without an item are free. -/
def FlagsFit (flags : Nat) (items : List (Token UInt8)) : Prop :=
  ∀ index item, items[index]? = some item → flags.testBit index = item.isReference

/-- The stored form of the tokens of a compressed chunk, from a position of its text on. -/
inductive ChunkEncodes : Nat → List (Token UInt8) → Bytes → Prop
  | last {position : Nat} {flags : UInt8} {items : List (Token UInt8)}
      (few : items.length ≤ 8) (marks : FlagsFit flags.toNat items)
      (fit : TokensFit position items) :
      ChunkEncodes position items (flags :: encodeItems position items)
  | more {position : Nat} {flags : UInt8} {items rest : List (Token UInt8)} {bytes : Bytes}
      (full : items.length = 8) (marks : FlagsFit flags.toNat items)
      (fit : TokensFit position items)
      (later : ChunkEncodes (position + extentOf items) rest bytes) :
      ChunkEncodes position (items ++ rest) (flags :: (encodeItems position items ++ bytes))

/-- A sequence of chunks, and the text that it stands for. -/
inductive StreamEncodes : Bytes → Bytes → Prop
  | nil : StreamEncodes [] []
  | raw {data text stream : Bytes} (nonempty : data ≠ []) (small : data.length ≤ 4096)
      (later : StreamEncodes text stream) :
      StreamEncodes (data ++ text) (le 2 (0x3000 + (data.length - 1)) ++ (data ++ stream))
  | compressed {tokens : List (Token UInt8)} {chunk bytes text stream : Bytes}
      (encodes : ChunkEncodes 0 tokens bytes) (describes : expand [] tokens = some chunk)
      (small : chunk.length ≤ 4096) (stored : bytes.length ≤ 4096)
      (later : StreamEncodes text stream) :
      StreamEncodes (chunk ++ text) (le 2 (0xb000 + (bytes.length - 1)) ++ (bytes ++ stream))

/-- A text cut to a size, or filled up with zeros. -/
def cutOrPad (size : Nat) (text : Bytes) : Bytes :=
  text.take size ++ List.replicate (size - text.length) 0

/-! ## Decompressing an encoding -/

theorem displacementBits_add_lengthBits
    {position : Nat} (small : position ≤ 2 ^ 15) :
    displacementBits position + lengthBits position = 16 := by
  have narrow : (position - 1).size ≤ 15 := Nat.size_le.mpr (by omega)
  rw [lengthBits, displacementBits]
  omega

/-- A reference that fits is stored in two bytes, and its fields are read back. -/
theorem referenceFields_encode
    {position displacement length : Nat}
    (fits : TokenFits position (.reference displacement length)) (small : position ≤ 2 ^ 15) :
    (displacement - 1) * 2 ^ lengthBits position + (length - 3) < 256 ^ 2 ∧
      referenceFields position
          ((displacement - 1) * 2 ^ lengthBits position + (length - 3)) =
        (displacement, length) := by
  obtain ⟨positive, inside, long, short⟩ := fits
  have power := Nat.two_pow_pos (lengthBits position)
  refine ⟨?_, ?_⟩
  · have bound : displacement - 1 < 2 ^ displacementBits position := by
      have size := Nat.lt_size_self (position - 1)
      have wider : 2 ^ (position - 1).size ≤ 2 ^ displacementBits position :=
        Nat.pow_le_pow_right (by decide) (Nat.le_max_right 4 _)
      omega
    calc
      (displacement - 1) * 2 ^ lengthBits position + (length - 3) <
          (displacement - 1) * 2 ^ lengthBits position + 2 ^ lengthBits position :=
        Nat.add_lt_add_left short _
      _ = (displacement - 1 + 1) * 2 ^ lengthBits position := by rw [Nat.succ_mul]
      _ ≤ 2 ^ displacementBits position * 2 ^ lengthBits position :=
        Nat.mul_le_mul_right _ (Nat.succ_le_of_lt bound)
      _ = 256 ^ 2 := by
        rw [← pow_add, displacementBits_add_lengthBits small]
        norm_num
  · rw [referenceFields, Nat.add_comm ((displacement - 1) * _),
      Nat.add_mul_div_right _ _ power, Nat.div_eq_of_lt short, Nat.add_mul_mod_self_right,
      Nat.mod_eq_of_lt short]
    refine Prod.ext ?_ ?_ <;> simp only <;> omega

theorem FlagsFit.cons
    {flags : Nat} {item : Token UInt8} {rest : List (Token UInt8)}
    (marks : FlagsFit flags (item :: rest)) :
    (flags % 2 = 1 ↔ item.isReference = true) ∧ FlagsFit (flags / 2) rest := by
  refine ⟨?_, fun index next found => ?_⟩
  · have first := marks 0 item rfl
    rw [Nat.testBit_zero] at first
    rw [← first, decide_eq_true_iff]
  · rw [← marks (index + 1) next found, Nat.testBit_succ]

/-- The items of a group give the text that their tokens describe. -/
theorem lznt1Items_encode (items : List (Token UInt8)) :
    ∀ {count flags position : Nat} {s rest text : Bytes},
      items.length ≤ count → (items.length = count ∨ rest = []) →
        FlagsFit flags items → TokensFit position items → s.length = position →
        expand s items = some text → text.length ≤ 2 ^ 15 →
          lznt1Items count flags (encodeItems position items ++ rest) s = .ok (rest, text) := by
  induction items with
  | nil =>
      intro count flags position s rest text few whole marks fit start expanded small
      rw [← Option.some.inj expanded]
      rcases whole with rfl | rfl
      · rfl
      · cases count <;> rfl
  | cons item items induction =>
      intro count flags position s rest text few whole marks fit start expanded small
      obtain ⟨count, rfl⟩ : ∃ less, count = less + 1 :=
        Nat.exists_eq_succ_of_ne_zero (by
          rw [List.length_cons] at few
          omega)
      obtain ⟨mark, laterMarks⟩ := marks.cons
      obtain ⟨itemFits, laterFit⟩ := fit
      have fewer : items.length ≤ count := Nat.le_of_succ_le_succ few
      have whole' : items.length = count ∨ rest = [] := whole.imp_left Nat.succ.inj
      have bound := length_expand _ expanded
      cases item with
      | literal byte =>
          have literal : flags % 2 = 0 := by
            have no : ¬ flags % 2 = 1 := fun one => by simpa [Token.isReference] using mark.mp one
            omega
          rw [encodeItems, encodeToken, List.append_assoc, List.singleton_append,
            lznt1Items_literal literal]
          refine induction fewer whole' laterMarks laterFit ?_ expanded small
          rw [List.length_append, start]
          rfl
      | reference displacement length =>
          have reference : flags % 2 = 1 := mark.mpr rfl
          obtain ⟨longer, copied, expanded'⟩ := Option.bind_eq_some_iff.mp expanded
          have grown := length_copyBack length copied
          have before : position ≤ 2 ^ 15 := by omega
          obtain ⟨inWord, fields⟩ := referenceFields_encode itemFits before
          have positive : 1 ≤ s.length := by
            obtain ⟨one, inside, -⟩ := itemFits
            omega
          have copy : copyReference s
              (unle (le 2 ((displacement - 1) * 2 ^ lengthBits position + (length - 3)))) =
                .ok longer := by
            rw [unle_le_of_lt inWord, copyReference_eq positive (by omega), start, fields, copied]
          rw [encodeItems, encodeToken, List.append_assoc]
          refine (lznt1Items_reference reference).trans ?_
          refine (congrArg (Except.bind · _) copy).trans ?_
          refine induction fewer whole' laterMarks laterFit ?_ expanded' small
          rw [grown, start]
          rfl

/-- A compressed chunk gives the text that its tokens describe. -/
theorem lznt1Groups_encode
    {position : Nat} {tokens : List (Token UInt8)} {bytes : Bytes}
    (encodes : ChunkEncodes position tokens bytes) :
    ∀ {turns : Nat} {s text : Bytes}, bytes.length ≤ turns → s.length = position →
      expand s tokens = some text → text.length ≤ 2 ^ 15 →
        lznt1Groups turns bytes s = .ok text := by
  induction encodes with
  | last few marks fit =>
      intro turns s text enough start expanded small
      obtain ⟨turns, rfl⟩ : ∃ less, turns = less + 1 :=
        Nat.exists_eq_succ_of_ne_zero (by
          rw [List.length_cons] at enough
          omega)
      have items := lznt1Items_encode _ few (Or.inr (Eq.refl [])) marks fit start expanded small
      rw [List.append_nil] at items
      rw [lznt1Groups_cons, items]
      exact lznt1Groups_nil turns text
  | more full marks fit later induction =>
      intro turns s text enough start expanded small
      obtain ⟨turns, rfl⟩ : ∃ less, turns = less + 1 :=
        Nat.exists_eq_succ_of_ne_zero (by
          rw [List.length_cons] at enough
          omega)
      rw [expand_append] at expanded
      obtain ⟨middle, first, second⟩ := Option.bind_eq_some_iff.mp expanded
      have middleLength := length_expand _ first
      have textLength := length_expand _ second
      rw [lznt1Groups_cons, lznt1Items_encode _ full.le (Or.inl full) marks fit start first
        (by omega)]
      refine induction ?_ (middleLength.trans (congrArg (· + _) start)) second small
      rw [List.length_cons, List.length_append] at enough
      omega

/-! ## Decompressing a stream -/

/-- The result while it is filled: the text so far, and zeros. -/
theorem copyTo_filled
    {size : Nat} {text source : Bytes} {count : Nat} (before : text.length ≤ size)
    (enough : count ≤ source.length) (room : text.length + count ≤ size) :
    copyTo (text ++ List.replicate (size - text.length) 0) text.length source count =
      .ok (text ++ source.take count ++
        List.replicate (size - (text.length + count)) 0) := by
  have taken : (source.take count).length = count := by
    rw [List.length_take, Nat.min_eq_left enough]
  rw [copyTo, if_pos]
  · rw [patch, List.take_left, taken, List.drop_append, List.drop_eq_nil_of_le
      (Nat.le_add_right _ _), List.nil_append, List.drop_replicate]
    congr 3
    omega
  · refine ⟨enough, ?_⟩
    rw [List.length_append, List.length_replicate]
    omega

/-- What a chunk adds to the result, or the end of the stream. -/
theorem lznt1Loop_chunk
    {size : Nat} {turns : Nat} {h : Nat} {data behind ret : Bytes} {ptr : Nat}
    (word : h < 256 ^ 2) (sig : h / 0x1000 % 8 = 3) (len : h % 0x1000 + 1 = data.length) :
    lznt1Loop size (turns + 1) (le 2 h ++ (data ++ behind)) ret ptr =
      (if h / 0x8000 % 2 = 1 then lznt1DecompressChunk data else .ok data).bind fun c =>
        if size ≤ ptr + c.length then copyTo ret ptr c (size - ptr)
        else
          (copyTo ret ptr c c.length).bind fun ret =>
            lznt1Loop size turns behind ret (ptr + c.length) := by
  have header : (le 2 h).length = 2 := length_le 2 h
  have nonzero : h ≠ 0 := by
    rintro rfl
    exact absurd sig (by decide)
  rw [lznt1Loop, if_neg (by rw [List.length_append, header]; omega)]
  simp only [List.take_left' header, List.drop_left' header, unle_le_of_lt word]
  rw [if_neg nonzero, if_neg (not_not.mpr sig), len,
    if_neg (by rw [List.length_append]; omega), List.take_left, List.drop_left]

theorem cutOrPad_of_le {size : Nat} {text : Bytes} (long : size ≤ text.length) :
    cutOrPad size text = text.take size := by
  rw [cutOrPad, Nat.sub_eq_zero_of_le long, List.replicate_zero, List.append_nil]

/-- A chunk is appended to the result, or what fits of it. -/
theorem fill_chunk
    {size : Nat} {done chunk text : Bytes} {next : Bytes → Nat → Except Lznt1Fault Bytes}
    (room : done.length < size)
    (later : (done ++ chunk).length < size →
      next (done ++ chunk ++ List.replicate (size - (done ++ chunk).length) 0)
        (done ++ chunk).length = .ok (cutOrPad size (done ++ chunk ++ text))) :
    (if size ≤ done.length + chunk.length then
        copyTo (done ++ List.replicate (size - done.length) 0) done.length chunk
          (size - done.length)
      else
        (copyTo (done ++ List.replicate (size - done.length) 0) done.length chunk
          chunk.length).bind fun ret => next ret (done.length + chunk.length)) =
      .ok (cutOrPad size (done ++ (chunk ++ text))) := by
  split_ifs with full
  · have long : size ≤ (done ++ (chunk ++ text)).length := by
      simp only [List.length_append]
      omega
    have fits : size - done.length - chunk.length = 0 := by omega
    rw [copyTo_filled room.le (by omega) (by omega), cutOrPad_of_le long, List.take_append,
      List.take_of_length_le room.le, List.take_append, fits, List.take_zero, List.append_nil,
      Nat.add_sub_cancel' room.le, Nat.sub_self, List.replicate_zero, List.append_nil]
  · have short : (done ++ chunk).length < size := by
      rw [List.length_append]
      omega
    have copied := later short
    rw [List.length_append, List.append_assoc done chunk text] at copied
    rw [copyTo_filled room.le le_rfl (by omega), List.take_length]
    exact copied

theorem ChunkEncodes.length_pos
    {position : Nat} {tokens : List (Token UInt8)} {bytes : Bytes}
    (encodes : ChunkEncodes position tokens bytes) : 0 < bytes.length := by
  cases encodes <;> exact Nat.succ_pos _

/-- The chunks of a stream are appended to the result until it is full. -/
theorem lznt1Loop_encode
    {text stream : Bytes} (encodes : StreamEncodes text stream) {size : Nat} {rest : Bytes} :
    ∀ {turns : Nat} {done : Bytes}, (stream ++ rest).length ≤ turns → done.length < size →
      (size ≤ done.length + text.length ∨ ∃ tail, rest = 0 :: 0 :: tail) →
        lznt1Loop size turns (stream ++ rest)
            (done ++ List.replicate (size - done.length) 0) done.length =
          .ok (cutOrPad size (done ++ text)) := by
  induction encodes with
  | nil =>
      intro turns done enough room ends
      obtain ⟨tail, rfl⟩ : ∃ tail, rest = 0 :: 0 :: tail := by
        rcases ends with full | zero
        · rw [List.length_nil, Nat.add_zero] at full
          exact absurd room (Nat.not_lt_of_le full)
        · exact zero
      obtain ⟨turns, rfl⟩ : ∃ less, turns = less + 1 :=
        Nat.exists_eq_succ_of_ne_zero (by
          simp only [List.nil_append, List.length_cons] at enough
          omega)
      have header : unle (([] ++ 0 :: 0 :: tail : Bytes).take 2) = 0 := rfl
      rw [lznt1Loop, if_neg (by simp)]
      simp only [header]
      rw [if_pos trivial, cutOrPad, List.append_nil, List.take_of_length_le room.le]
  | @raw data text stream nonempty small later induction =>
      intro turns done enough room ends
      obtain ⟨turns, rfl⟩ : ∃ less, turns = less + 1 :=
        Nat.exists_eq_succ_of_ne_zero (by
          simp only [List.length_append, length_le] at enough
          omega)
      have positive := List.length_pos_iff.mpr nonempty
      rw [List.append_assoc, List.append_assoc,
        lznt1Loop_chunk (by omega) (by omega) (by omega), if_neg (by omega)]
      refine fill_chunk room fun short => induction ?_ short ?_
      · simp only [List.length_append, length_le] at enough ⊢
        omega
      · refine ends.imp_left fun full => ?_
        rw [List.length_append] at full ⊢
        omega
  | @compressed tokens chunk bytes text stream encodes describes small stored later induction =>
      intro turns done enough room ends
      obtain ⟨turns, rfl⟩ : ∃ less, turns = less + 1 :=
        Nat.exists_eq_succ_of_ne_zero (by
          simp only [List.length_append, length_le] at enough
          omega)
      have positive := encodes.length_pos
      have chunkText : lznt1DecompressChunk bytes = .ok chunk :=
        lznt1Groups_encode encodes le_rfl rfl describes (small.trans (by decide))
      rw [List.append_assoc, List.append_assoc,
        lznt1Loop_chunk (by omega) (by omega) (by omega), if_pos (by omega), chunkText]
      refine fill_chunk room fun short => induction ?_ short ?_
      · simp only [List.length_append, length_le] at enough ⊢
        omega
      · refine ends.imp_left fun full => ?_
        rw [List.length_append] at full ⊢
        omega

/--
A valid encoding that is ended by a zero header, or that fills the requested
size, is decompressed to its text, cut or filled up with zeros; and the fast
path for the flag byte 0 does what the loop over the items does.
-/
theorem lznt1Decompress_encode
    {text stream rest : Bytes} {size : Nat} (encodes : StreamEncodes text stream)
    (positive : 1 ≤ size) (ends : size ≤ text.length ∨ ∃ tail, rest = 0 :: 0 :: tail) :
    lznt1Decompress (stream ++ rest) size = .ok (cutOrPad size text) ∧
      ∀ (turns : Nat) (data s : Bytes),
        lznt1Groups (turns + 1) (0 :: data) s =
          (lznt1Items 8 0 data s).bind fun left => lznt1Groups turns left.1 left.2 := by
  refine ⟨?_, fun turns data s => lznt1Groups_cons turns 0 data s⟩
  have filled (turns : Nat) (enough : (stream ++ rest).length ≤ turns) :=
    @lznt1Loop_encode text stream encodes size rest turns [] enough positive
      (by simpa using ends)
  exact filled _ le_rfl

/-- A literal and a reference to it, in a chunk of four bytes. -/
theorem lznt1Decompress_encode_small :
    lznt1Decompress ([0x03, 0xb0, 0x02, 0x61, 0, 0] ++ [0, 0]) 6 =
      .ok [0x61, 0x61, 0x61, 0x61, 0, 0] := by
  have items : encodeItems 0 [.literal 0x61, .reference 1 3] = [0x61, 0, 0] := by
    simp [encodeItems, encodeToken, le]
  have marks : FlagsFit (0x02 : UInt8).toNat [.literal 0x61, .reference 1 3] := by
    intro index item found
    rcases index with _ | _ | index
    · rw [← Option.some.inj found]
      rfl
    · rw [← Option.some.inj found]
      rfl
    · simp at found
  have fit : TokensFit 0 [.literal 0x61, .reference 1 3] :=
    ⟨trivial, ⟨le_rfl, le_rfl, le_rfl, Nat.two_pow_pos _⟩, trivial⟩
  have chunk := ChunkEncodes.last (by decide) marks fit
  rw [items] at chunk
  have encodes := StreamEncodes.compressed chunk
    (show _ = some [0x61, 0x61, 0x61, 0x61] from rfl) (by decide) (by decide) StreamEncodes.nil
  exact (lznt1Decompress_encode encodes (by decide) (Or.inr ⟨[], rfl⟩)).1

end Ntfs2Btrfs
