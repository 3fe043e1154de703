import Mathlib.Tactic
import Mathlib.Data.List.Basic

/-!
# Byte strings, packed fields and byte-addressed stores

Three small layers used wherever structures are laid out in raw bytes:

* little-endian encodings of fixed width;
* reading (`slice`) and overwriting (`patch`) a part of a byte string of fixed
  length, with the rules that a patched part reads back and that every
  disjoint part is unchanged;
* an unbounded byte-addressed store with the same two rules.
-/

namespace ByteStore

abbrev Bytes := List UInt8

/-! ## Little-endian fields -/

/-- The `width` low-order bytes of a number, least significant first. -/
def le : Nat → Nat → Bytes
  | 0, _ => []
  | width + 1, value => UInt8.ofNat value :: le width (value / 256)

/-- The number that a little-endian byte string denotes. -/
def unle : Bytes → Nat
  | [] => 0
  | byte :: rest => byte.toNat + 256 * unle rest

@[simp]
theorem length_le (width value : Nat) :
    (le width value).length = width := by
  induction width generalizing value with
  | zero => rfl
  | succ width induction => simp [le, induction]

theorem unle_le (width value : Nat) :
    unle (le width value) = value % 256 ^ width := by
  induction width generalizing value with
  | zero => simp [le, unle, Nat.mod_one]
  | succ width induction =>
      have byteValue : (UInt8.ofNat value).toNat = value % 256 := by
        simp
      rw [le, unle, induction, byteValue, pow_succ, Nat.mul_comm (256 ^ width),
        Nat.mod_mul]

/-- A number that fits its field reads back. -/
theorem unle_le_of_lt
    {width value : Nat}
    (fits : value < 256 ^ width) :
    unle (le width value) = value := by
  rw [unle_le, Nat.mod_eq_of_lt fits]

theorem unle_lt (bytes : Bytes) :
    unle bytes < 256 ^ bytes.length := by
  induction bytes with
  | nil => simp [unle]
  | cons byte rest induction =>
      have bound := byte.toNat_lt
      rw [unle, List.length_cons, pow_succ]
      omega

theorem unle_append (front back : Bytes) :
    unle (front ++ back) = unle front + 256 ^ front.length * unle back := by
  induction front with
  | nil => simp [unle]
  | cons byte rest induction =>
      rw [List.cons_append, unle, unle, induction, List.length_cons, pow_succ]
      ring

/-! ## Parts of a byte string -/

/-- The part `[offset, offset + length)` of a byte string. -/
def slice (bytes : Bytes) (offset length : Nat) : Bytes :=
  (bytes.drop offset).take length

/-- Overwrite the part of a byte string that starts at `offset`. -/
def patch (bytes : Bytes) (offset : Nat) (data : Bytes) : Bytes :=
  bytes.take offset ++ data ++ bytes.drop (offset + data.length)

theorem length_slice
    {bytes : Bytes} {offset length : Nat}
    (inside : offset + length ≤ bytes.length) :
    (slice bytes offset length).length = length := by
  simp only [slice, List.length_take, List.length_drop]
  omega

@[simp]
theorem length_patch
    {bytes : Bytes} {offset : Nat} {data : Bytes}
    (inside : offset + data.length ≤ bytes.length) :
    (patch bytes offset data).length = bytes.length := by
  simp only [patch, List.length_append, List.length_take, List.length_drop]
  omega

theorem getElem?_slice (bytes : Bytes) (offset length index : Nat) :
    (slice bytes offset length)[index]? =
      if index < length then bytes[offset + index]? else none := by
  simp only [slice, List.getElem?_take, List.getElem?_drop]

theorem getElem?_patch
    {bytes : Bytes} {offset : Nat} {data : Bytes}
    (inside : offset + data.length ≤ bytes.length)
    (index : Nat) :
    (patch bytes offset data)[index]? =
      if offset ≤ index ∧ index < offset + data.length
      then data[index - offset]?
      else bytes[index]? := by
  have takeLength : (bytes.take offset).length = offset := by
    rw [List.length_take]
    omega
  simp only [patch, List.getElem?_append, List.length_append, takeLength,
    List.getElem?_take, List.getElem?_drop]
  split_ifs <;> first | rfl | omega | (congr 1; omega)

/-- The patched part reads back. -/
theorem slice_patch_self
    {bytes : Bytes} {offset : Nat} {data : Bytes}
    (inside : offset + data.length ≤ bytes.length) :
    slice (patch bytes offset data) offset data.length = data := by
  apply List.ext_getElem?
  intro index
  rw [getElem?_slice, getElem?_patch inside]
  by_cases within : index < data.length
  · rw [if_pos within, if_pos (by omega), Nat.add_sub_cancel_left]
  · rw [if_neg within, List.getElem?_eq_none (by omega)]

/-- A part disjoint from the patched one is unchanged. -/
theorem slice_patch_disjoint
    {bytes : Bytes} {offset : Nat} {data : Bytes}
    (inside : offset + data.length ≤ bytes.length)
    {other length : Nat}
    (disjoint : other + length ≤ offset ∨ offset + data.length ≤ other) :
    slice (patch bytes offset data) other length =
      slice bytes other length := by
  apply List.ext_getElem?
  intro index
  rw [getElem?_slice, getElem?_slice]
  split_ifs with within
  · rw [getElem?_patch inside, if_neg (by omega)]
  · rfl

/-- A change of a part of a byte string. -/
theorem patch_inside
    (front back : Bytes) {middle data : Bytes} {offset : Nat}
    (inside : offset + data.length ≤ middle.length) :
    patch (front ++ (middle ++ back)) (front.length + offset) data =
      front ++ (patch middle offset data ++ back) := by
  rw [patch, patch, List.take_length_add_append, List.take_append_of_le_length (by omega),
    Nat.add_assoc, List.drop_length_add_append, List.drop_append_of_le_length inside]
  simp only [List.append_assoc]

/-- A part of a byte string is replaced. -/
theorem patch_middle
    (front back : Bytes) {middle data : Bytes} (same : data.length = middle.length) :
    patch (front ++ (middle ++ back)) front.length data = front ++ (data ++ back) := by
  rw [patch, List.take_left, ← List.append_assoc front middle back, same,
    ← List.length_append, List.drop_left, List.append_assoc]

/-- A part of a part is a part. -/
theorem slice_slice
    {bytes : Bytes} {offset length inner innerLength : Nat}
    (inside : inner + innerLength ≤ length) :
    slice (slice bytes offset length) inner innerLength =
      slice bytes (offset + inner) innerLength := by
  apply List.ext_getElem?
  intro index
  rw [getElem?_slice, getElem?_slice, getElem?_slice]
  split_ifs with within inner'
  · rw [Nat.add_assoc]
  · omega
  · rfl

theorem slice_first
    {field : Bytes} {length : Nat} (after : Bytes)
    (size : field.length = length) :
    slice (field ++ after) 0 length = field := by
  rw [slice, List.drop_zero, List.take_left' size]

/-- What lies behind a field of known size is read without it. -/
theorem slice_behind
    {field rest : Bytes} {size offset length : Nat} (width : field.length = size)
    (later : size ≤ offset) :
    slice (field ++ rest) offset length = slice rest (offset - size) length := by
  rw [slice, slice, List.drop_append, List.drop_eq_nil_of_le (width.trans_le later),
    List.nil_append, width]

/-- A part of a row of byte strings is found behind the earlier ones. -/
theorem slice_flatten
    {parts : List Bytes} {index : Nat} {part : Bytes}
    (found : parts[index]? = some part) (back : Bytes) :
    slice (parts.flatten ++ back) (parts.take index).flatten.length part.length = part := by
  induction parts generalizing index with
  | nil => cases found
  | cons first rest ih =>
    cases index with
    | zero =>
      obtain rfl := Option.some.inj found
      rw [List.flatten_cons, List.append_assoc]
      exact slice_first _ rfl
    | succ index =>
      rw [List.take_succ_cons, List.flatten_cons, List.flatten_cons, List.append_assoc,
        slice_behind rfl (by rw [List.length_append]; omega), List.length_append,
        Nat.add_sub_cancel_left]
      exact ih found

theorem length_flatten_take_succ
    {parts : List Bytes} {index : Nat} {part : Bytes}
    (found : parts[index]? = some part) :
    (parts.take (index + 1)).flatten.length =
      (parts.take index).flatten.length + part.length := by
  rw [List.take_add_one, found, Option.toList_some, List.flatten_append,
    List.length_append, List.flatten_singleton]

theorem length_flatten_take_le (parts : List Bytes) (index : Nat) :
    (parts.take index).flatten.length ≤ parts.flatten.length :=
  ((List.take_prefix index parts).flatten).length_le

/-! ## Byte-addressed stores -/

/-- An unbounded byte-addressed store. -/
abbrev Store := Nat → UInt8

namespace Store

/-- The `length` bytes from `offset` on. -/
def read (store : Store) (offset length : Nat) : Bytes :=
  (List.range length).map fun index => store (offset + index)

/-- The store that holds the bytes from address 0 on, and zeros after them. -/
def ofBytes (bytes : Bytes) : Store :=
  fun address => bytes.getD address 0

/-- Overwrite the bytes from `offset` on. -/
def write (store : Store) (offset : Nat) (data : Bytes) : Store :=
  fun address =>
    if offset ≤ address then data.getD (address - offset) (store address)
    else store address

@[simp]
theorem length_read (store : Store) (offset length : Nat) :
    (store.read offset length).length = length := by
  simp [read]

theorem getElem?_read (store : Store) (offset length index : Nat) :
    (store.read offset length)[index]? =
      if index < length then some (store (offset + index)) else none := by
  simp only [read, List.getElem?_map]
  split_ifs with within
  · simp [List.getElem?_range within]
  · rw [List.getElem?_eq_none (by simpa using within)]
    rfl

theorem read_ofBytes
    {bytes : Bytes} {offset length : Nat} (inside : offset + length ≤ bytes.length) :
    (ofBytes bytes).read offset length = slice bytes offset length := by
  refine List.ext_getElem? fun index => ?_
  rw [getElem?_read, getElem?_slice]
  split_ifs with before
  · rw [ofBytes, List.getD_eq_getElem?_getD, List.getElem?_eq_getElem (by omega)]
    rfl
  · rfl

theorem read_append (store : Store) (offset left right : Nat) :
    store.read offset (left + right) =
      store.read offset left ++ store.read (offset + left) right := by
  simp only [read, List.range_add, List.map_append, List.map_map]
  refine congrArg (_ ++ ·) (List.map_congr_left fun index _ => ?_)
  simp only [Function.comp_apply, Nat.add_assoc]

theorem read_eq_append_iff
    {store : Store} {offset : Nat} {front back : Bytes} :
    store.read offset (front ++ back).length = front ++ back ↔
      store.read offset front.length = front ∧
        store.read (offset + front.length) back.length = back := by
  rw [List.length_append, read_append]
  constructor
  · intro stored
    exact List.append_inj stored (length_read _ _ _)
  · rintro ⟨frontStored, backStored⟩
    rw [frontStored, backStored]

theorem read_eq_cons_iff
    {store : Store} {offset : Nat} {byte : UInt8} {rest : Bytes} :
    store.read offset (byte :: rest).length = byte :: rest ↔
      store offset = byte ∧ store.read (offset + 1) rest.length = rest := by
  rw [← List.singleton_append, read_eq_append_iff]
  simp [read]

/-- The low-order bytes of a longer field. -/
theorem unle_read_mod
    (store : Store) (offset : Nat) {short long : Nat} (shorter : short ≤ long) :
    unle (store.read offset long) % 256 ^ short = unle (store.read offset short) := by
  obtain ⟨rest, rfl⟩ := Nat.exists_eq_add_of_le shorter
  have bound := unle_lt (store.read offset short)
  rw [length_read] at bound
  rw [read_append, unle_append, length_read, Nat.add_mul_mod_self_left,
    Nat.mod_eq_of_lt bound]

/-- Reading depends only on the addresses read. -/
theorem read_congr
    {left right : Store} {offset length : Nat}
    (agree : ∀ address, offset ≤ address → address < offset + length →
      left address = right address) :
    left.read offset length = right.read offset length := by
  apply List.map_congr_left
  intro index member
  exact agree _ (by omega)
    (by simpa using List.mem_range.mp member)

/-- A written address holds the byte written there. -/
theorem write_inside
    {store : Store} {offset : Nat} {data : Bytes} {address : Nat}
    (lower : offset ≤ address)
    (upper : address < offset + data.length) :
    data[address - offset]? = some (store.write offset data address) := by
  rw [write, if_pos lower, List.getD_eq_getElem?_getD,
    List.getElem?_eq_getElem (by omega)]
  rfl

/-- An address outside the written range is unchanged. -/
theorem write_outside
    {store : Store} {offset : Nat} {data : Bytes} {address : Nat}
    (outside : address < offset ∨ offset + data.length ≤ address) :
    store.write offset data address = store address := by
  rw [write]
  split_ifs with lower
  · rw [List.getD_eq_getElem?_getD, List.getElem?_eq_none (by omega)]
    rfl
  · rfl

/-- What was written reads back. -/
theorem read_write_self (store : Store) (offset : Nat) (data : Bytes) :
    (store.write offset data).read offset data.length = data := by
  apply List.ext_getElem?
  intro index
  rw [getElem?_read]
  split_ifs with within
  · have stored :
        data[offset + index - offset]? =
          some (store.write offset data (offset + index)) :=
      write_inside (by omega) (by omega)
    rw [Nat.add_sub_cancel_left] at stored
    exact stored.symm
  · rw [List.getElem?_eq_none (by omega)]

/-- A range disjoint from the written one reads as before. -/
theorem read_write_disjoint
    (store : Store) {offset : Nat} {data : Bytes} {other length : Nat}
    (disjoint : other + length ≤ offset ∨ offset + data.length ≤ other) :
    (store.write offset data).read other length =
      store.read other length :=
  read_congr fun _ lower upper => write_outside (by omega)

theorem slice_read
    (store : Store) {offset length inner innerLength : Nat}
    (inside : inner + innerLength ≤ length) :
    slice (store.read offset length) inner innerLength =
      store.read (offset + inner) innerLength := by
  apply List.ext_getElem?
  intro index
  rw [getElem?_slice, getElem?_read, getElem?_read]
  split_ifs <;> first | rfl | omega | rw [Nat.add_assoc]

/-! ### Lists of writes -/

/-- Perform writes one after the other. -/
def writeAll (store : Store) (writes : List (Nat × Bytes)) : Store :=
  writes.foldl (fun store entry => store.write entry.1 entry.2) store

@[simp]
theorem writeAll_nil (store : Store) : store.writeAll [] = store :=
  rfl

@[simp]
theorem writeAll_cons (store : Store) (entry : Nat × Bytes) (writes : List (Nat × Bytes)) :
    store.writeAll (entry :: writes) = (store.write entry.1 entry.2).writeAll writes :=
  rfl

theorem writeAll_append (store : Store) (front back : List (Nat × Bytes)) :
    store.writeAll (front ++ back) = (store.writeAll front).writeAll back :=
  List.foldl_append

/-- The address is in the range that an entry writes. -/
def Touches (entry : Nat × Bytes) (address : Nat) : Prop :=
  entry.1 ≤ address ∧ address < entry.1 + entry.2.length

instance (entry : Nat × Bytes) (address : Nat) : Decidable (Touches entry address) :=
  inferInstanceAs (Decidable (_ ∧ _))

theorem write_of_not_touches
    {store : Store} {entry : Nat × Bytes} {address : Nat} (outside : ¬ Touches entry address) :
    store.write entry.1 entry.2 address = store address :=
  write_outside (by rw [Touches] at outside; omega)

/-- An address that no write touches is unchanged. -/
theorem writeAll_outside
    {store : Store} {writes : List (Nat × Bytes)} {address : Nat}
    (outside : ∀ entry ∈ writes, ¬ Touches entry address) :
    store.writeAll writes address = store address := by
  induction writes generalizing store with
  | nil => rfl
  | cons entry rest ih =>
    rw [writeAll_cons, ih fun other member => outside other (List.mem_cons_of_mem entry member)]
    exact write_of_not_touches (outside entry List.mem_cons_self)

/-- An address holds what the last write that touches it wrote there. -/
theorem writeAll_last
    {store : Store} {front back : List (Nat × Bytes)} {entry : Nat × Bytes} {address : Nat}
    (inside : Touches entry address) (outside : ∀ other ∈ back, ¬ Touches other address) :
    entry.2[address - entry.1]? = some (store.writeAll (front ++ entry :: back) address) := by
  rw [writeAll_append, writeAll_cons, writeAll_outside outside]
  exact write_inside inside.1 inside.2

/-- A range that no write touches reads as before. -/
theorem read_writeAll_disjoint
    (store : Store) {writes : List (Nat × Bytes)} {offset length : Nat}
    (disjoint : ∀ entry ∈ writes,
      offset + length ≤ entry.1 ∨ entry.1 + entry.2.length ≤ offset) :
    (store.writeAll writes).read offset length = store.read offset length := by
  refine read_congr fun address lower upper => writeAll_outside fun entry member touches => ?_
  have apart := disjoint entry member
  rw [Touches] at touches
  omega

/-- Of writes that do not overlap each one reads back. -/
theorem read_writeAll_of_apart
    {store : Store} {writes : List (Nat × Bytes)} {entry : Nat × Bytes}
    (apart : writes.Pairwise fun left right =>
      left.1 + left.2.length ≤ right.1 ∨ right.1 + right.2.length ≤ left.1)
    (member : entry ∈ writes) :
    (store.writeAll writes).read entry.1 entry.2.length = entry.2 := by
  induction writes generalizing store with
  | nil => cases member
  | cons first rest ih =>
    obtain ⟨before, others⟩ := List.pairwise_cons.mp apart
    rw [writeAll_cons]
    rcases List.mem_cons.mp member with rfl | later
    · rw [read_writeAll_disjoint _ before, read_write_self]
    · exact ih others later

end Store

end ByteStore
