import Mathlib.Algebra.GroupWithZero.Nat
import Mathlib.Data.List.Basic

/-!
# Prefix-free codes

A code whose words are not empty and none of which continues another one is
uniquely decodable: a text determines its symbols.  Cutting a text at a number
of letters leaves the symbols that fit and a proper part of the word of the
next one.
-/

namespace PrefixCode

variable {α β : Type*}

/-- On the admitted symbols words are not empty and determine their symbol. -/
structure PrefixFree (encode : α → List β) (admitted : α → Prop) : Prop where
  nonempty : ∀ a, admitted a → encode a ≠ []
  unique : ∀ a b x y,
    admitted a → admitted b → encode a ++ x = encode b ++ y → a = b

section Decoding

variable {encode : α → List β} {admitted : α → Prop}

theorem PrefixFree.flatMap_eq_nil_iff
    (code : PrefixFree encode admitted) {text : List α}
    (admits : ∀ a ∈ text, admitted a) :
    text.flatMap encode = [] ↔ text = [] := by
  constructor
  · intro empty
    cases text with
    | nil => rfl
    | cons a rest =>
      rw [List.flatMap_cons, List.append_eq_nil_iff] at empty
      exact absurd empty.1 (code.nonempty a (admits a List.mem_cons_self))
  · rintro rfl
    rfl

/-- A text has one reading. -/
theorem PrefixFree.flatMap_inj
    (code : PrefixFree encode admitted) :
    ∀ {left right : List α},
      (∀ a ∈ left, admitted a) → (∀ a ∈ right, admitted a) →
        left.flatMap encode = right.flatMap encode → left = right := by
  intro left
  induction left with
  | nil =>
    intro right _ admits equal
    exact ((code.flatMap_eq_nil_iff admits).mp equal.symm).symm
  | cons a rest ih =>
    intro right admits admits' equal
    cases right with
    | nil =>
      exact absurd ((code.flatMap_eq_nil_iff admits).mp equal) (List.cons_ne_nil a rest)
    | cons b others =>
      rw [List.flatMap_cons, List.flatMap_cons] at equal
      obtain rfl : a = b :=
        code.unique a b _ _ (admits a List.mem_cons_self)
          (admits' b List.mem_cons_self) equal
      rw [List.append_cancel_left_eq] at equal
      rw [ih (fun c member => admits c (List.mem_cons_of_mem a member))
        (fun c member => admits' c (List.mem_cons_of_mem a member)) equal]

/-- An initial part of a text that consists of words is an initial part of the reading. -/
theorem PrefixFree.initialPart
    (code : PrefixFree encode admitted) {part : List α} :
    ∀ {text : List α}, (∀ a ∈ part, admitted a) → (∀ a ∈ text, admitted a) →
      part.flatMap encode <+: text.flatMap encode → part <+: text := by
  induction part with
  | nil => exact fun _ _ _ => List.nil_prefix
  | cons a rest ih =>
    intro text admits admits' begins
    cases text with
    | nil =>
      have empty := List.prefix_nil.mp begins
      exact absurd ((code.flatMap_eq_nil_iff admits).mp empty) (List.cons_ne_nil a rest)
    | cons b others =>
      obtain ⟨back, equal⟩ := begins
      rw [List.flatMap_cons, List.flatMap_cons, List.append_assoc] at equal
      obtain rfl : a = b :=
        code.unique a b _ _ (admits a List.mem_cons_self)
          (admits' b List.mem_cons_self) equal
      rw [List.append_cancel_left_eq] at equal
      exact (List.prefix_cons_inj a).mpr
        (ih (fun c member => admits c (List.mem_cons_of_mem a member))
          (fun c member => admits' c (List.mem_cons_of_mem a member)) ⟨back, equal⟩)

end Decoding

/-! ## Cutting a text -/

/-- The longest initial part of a text whose words have a number of letters. -/
def fitting (size : α → Nat) : Nat → List α → List α
  | _, [] => []
  | room, a :: rest =>
      if size a ≤ room then a :: fitting size (room - size a) rest else []

theorem fitting_initialPart (size : α → Nat) (text : List α) :
    ∀ room, fitting size room text <+: text := by
  induction text with
  | nil => exact fun room => List.nil_prefix
  | cons a rest ih =>
    intro room
    rw [fitting]
    split_ifs
    · exact (List.prefix_cons_inj a).mpr (ih _)
    · exact List.nil_prefix

theorem mem_of_mem_fitting
    {size : α → Nat} {room : Nat} {text : List α} {a : α}
    (member : a ∈ fitting size room text) :
    a ∈ text :=
  (fitting_initialPart size text room).subset member

theorem fitting_eq_self
    {size : α → Nat} {text : List α} :
    ∀ {room}, (text.map size).sum ≤ room → fitting size room text = text := by
  induction text with
  | nil => exact fun _ => rfl
  | cons a rest ih =>
    intro room small
    rw [List.map_cons, List.sum_cons] at small
    rw [fitting, if_pos (by omega), ih (by omega)]

theorem sum_fitting_le (size : α → Nat) (text : List α) :
    ∀ room, ((fitting size room text).map size).sum ≤ room := by
  induction text with
  | nil => exact fun room => Nat.zero_le room
  | cons a rest ih =>
    intro room
    rw [fitting]
    split_ifs with fits
    · have bound := ih (room - size a)
      rw [List.map_cons, List.sum_cons]
      omega
    · exact Nat.zero_le room

/-- Every initial part that has the room is in the longest one. -/
theorem initialPart_fitting
    {size : α → Nat} {part : List α} :
    ∀ {text room}, part <+: text → (part.map size).sum ≤ room →
      part <+: fitting size room text := by
  induction part with
  | nil => exact fun _ _ => List.nil_prefix
  | cons a rest ih =>
    intro text room begins small
    obtain ⟨back, rfl⟩ := begins
    rw [List.map_cons, List.sum_cons] at small
    rw [List.cons_append, fitting, if_pos (by omega)]
    exact (List.prefix_cons_inj a).mpr (ih (List.prefix_append rest back) (by omega))

theorem fitting_map (size : β → Nat) (symbol : α → β) (text : List α) :
    ∀ room, fitting size room (text.map symbol) =
      (fitting (fun a => size (symbol a)) room text).map symbol := by
  induction text with
  | nil => exact fun room => rfl
  | cons a rest ih =>
    intro room
    rw [List.map_cons, fitting, fitting]
    split_ifs
    · rw [ih, List.map_cons]
    · rfl

/-- A text that is cut fills the room up to less than the size of one symbol. -/
theorem lt_sum_fitting_of_ne
    {size : α → Nat} {largest : Nat} {text : List α}
    (sizes : ∀ a ∈ text, size a ≤ largest) :
    ∀ {room}, fitting size room text ≠ text →
      room < ((fitting size room text).map size).sum + largest := by
  induction text with
  | nil => exact fun cut => absurd rfl cut
  | cons a rest ih =>
    intro room cut
    by_cases fits : size a ≤ room
    · rw [fitting, if_pos fits] at cut ⊢
      have restCut : fitting size (room - size a) rest ≠ rest :=
        fun same => cut (congrArg (List.cons a) same)
      have bound :=
        ih (fun b member => sizes b (List.mem_cons_of_mem a member)) restCut
      rw [List.map_cons, List.sum_cons]
      omega
    · have bound := sizes a List.mem_cons_self
      rw [fitting, if_neg fits, List.map_nil, List.sum_nil]
      omega

/-- What is left of a text after a number of letters. -/
theorem take_flatMap
    (encode : α → List β) (text : List α) :
    ∀ room, ∃ part,
      (text.flatMap encode).take room =
          (fitting (fun a => (encode a).length) room text).flatMap encode ++ part ∧
        (part = [] ∨ ∃ a ∈ text, ∃ count, 0 < count ∧ count < (encode a).length ∧
          part = (encode a).take count) := by
  induction text with
  | nil => exact fun room => ⟨[], by simp [fitting], Or.inl rfl⟩
  | cons a rest ih =>
    intro room
    by_cases fits : (encode a).length ≤ room
    · obtain ⟨part, equal, shape⟩ := ih (room - (encode a).length)
      refine ⟨part, ?_, ?_⟩
      · rw [List.flatMap_cons, List.take_append, List.take_of_length_le fits, equal,
          fitting, if_pos fits, List.flatMap_cons, List.append_assoc]
      · rcases shape with empty | ⟨b, member, count, positive, short, equal⟩
        · exact Or.inl empty
        · exact Or.inr
            ⟨b, List.mem_cons_of_mem a member, count, positive, short, equal⟩
    · refine ⟨(encode a).take room, ?_, ?_⟩
      · rw [List.flatMap_cons, List.take_append_of_le_length (by omega), fitting,
          if_neg fits]
        rfl
      · rcases Nat.eq_zero_or_pos room with zero | positive
        · exact Or.inl (by rw [zero, List.take_zero])
        · exact Or.inr
            ⟨a, List.mem_cons_self, room, positive, by omega, rfl⟩

end PrefixCode
