import Mathlib.Algebra.GroupWithZero.Nat
import Mathlib.Data.List.Basic

/-!
# Texts with back references

A text is written as a sequence of tokens: items, and references to a part of
the text that ends before the current position.  A reference may reach into the
part that it produces itself, so it is expanded item by item.

Nothing is assumed about the items or about how tokens are stored.
-/

namespace BackReferences

variable {α : Type*}

/-- An item, or a number of items that start some way before the current end. -/
inductive Token (α : Type*) where
  | literal (item : α)
  | reference (displacement length : Nat)
deriving DecidableEq, Repr

/-- Append items one by one, each of them a copy of an earlier one. -/
def copyBack (displacement : Nat) : Nat → List α → Option (List α)
  | 0, text => some text
  | length + 1, text =>
      if displacement ≤ text.length then
        text[text.length - displacement]?.bind fun item =>
          copyBack displacement length (text ++ [item])
      else none

/-- The text behind `text` that tokens describe. -/
def expand : List α → List (Token α) → Option (List α)
  | text, [] => some text
  | text, .literal item :: rest => expand (text ++ [item]) rest
  | text, .reference displacement length :: rest =>
      (copyBack displacement length text).bind fun longer => expand longer rest

/-- The number of items that a token stands for. -/
def Token.extent : Token α → Nat
  | .literal _ => 1
  | .reference _ length => length

/-- The token is a reference. -/
def Token.isReference : Token α → Bool
  | .literal _ => false
  | .reference _ _ => true

/-- A reference that stays inside the text can be copied. -/
theorem exists_copyBack
    {displacement : Nat} (positive : 1 ≤ displacement) (length : Nat) :
    ∀ {text : List α}, displacement ≤ text.length →
      ∃ longer, copyBack displacement length text = some longer := by
  induction length with
  | zero => exact fun {text} _ => ⟨text, rfl⟩
  | succ length induction =>
      intro text inside
      have place : text.length - displacement < text.length := by omega
      rw [copyBack, if_pos inside, List.getElem?_eq_getElem place]
      refine induction ?_
      rw [List.length_append]
      omega

/-- A reference that starts before the text cannot be copied. -/
theorem copyBack_eq_none
    {displacement length : Nat} {text : List α}
    (outside : text.length < displacement) (positive : 0 < length) :
    copyBack displacement length text = none := by
  obtain ⟨rest, rfl⟩ := Nat.exists_eq_succ_of_ne_zero (Nat.pos_iff_ne_zero.mp positive)
  rw [copyBack, if_neg (Nat.not_le_of_lt outside)]

theorem length_copyBack
    {displacement : Nat} (length : Nat) :
    ∀ {text longer : List α}, copyBack displacement length text = some longer →
      longer.length = text.length + length := by
  induction length with
  | zero =>
      intro text longer copied
      rw [← Option.some.inj copied, Nat.add_zero]
  | succ length induction =>
      intro text longer copied
      rw [copyBack] at copied
      split_ifs at copied with inside
      obtain ⟨item, -, copied⟩ := Option.bind_eq_some_iff.mp copied
      rw [induction copied, List.length_append, List.length_singleton]
      omega

theorem expand_append (front back : List (Token α)) :
    ∀ text : List α,
      expand text (front ++ back) = (expand text front).bind fun longer => expand longer back := by
  induction front with
  | nil => exact fun _ => rfl
  | cons token rest induction =>
      intro text
      cases token with
      | literal item => exact induction (text ++ [item])
      | reference displacement length =>
          rw [List.cons_append, expand, expand]
          cases copyBack displacement length text with
          | none => rfl
          | some longer => exact induction longer

/-- The number of items that a sequence of tokens stands for. -/
def extentOf (tokens : List (Token α)) : Nat :=
  (tokens.map Token.extent).sum

theorem length_expand (tokens : List (Token α)) :
    ∀ {text longer : List α}, expand text tokens = some longer →
      longer.length = text.length + extentOf tokens := by
  induction tokens with
  | nil =>
      intro text longer expanded
      rw [← Option.some.inj expanded]
      rfl
  | cons token rest induction =>
      intro text longer expanded
      rw [extentOf, List.map_cons, List.sum_cons, ← extentOf]
      cases token with
      | literal item =>
          rw [induction expanded, List.length_append, Nat.add_assoc]
          rfl
      | reference displacement length =>
          obtain ⟨copied, copy, expanded⟩ := Option.bind_eq_some_iff.mp expanded
          rw [induction expanded, length_copyBack length copy, Nat.add_assoc]
          rfl

end BackReferences
