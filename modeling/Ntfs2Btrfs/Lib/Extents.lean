import Mathlib.Tactic
import Mathlib.Data.List.Basic

/-!
# Lists of half-open extents

An extent is a half-open range of addresses.  A list of extents denotes the
set of addresses that one of its members contains.  A *tidy* list has no
empty member, and its members are ordered and pairwise disjoint, so it can be
searched and cut from the left.

Everything here is about ranges of natural numbers; no user of such a list is
assumed.
-/

namespace Extents

/-- The half-open range of addresses `[offset, offset + length)`. -/
structure Extent where
  offset : Nat
  length : Nat
deriving DecidableEq, Repr

/-- The first address after an extent. -/
def Extent.stop (extent : Extent) : Nat :=
  extent.offset + extent.length

/-- The extent contains the address. -/
def Extent.Contains (extent : Extent) (address : Nat) : Prop :=
  extent.offset ≤ address ∧ address < extent.stop

instance (extent : Extent) (address : Nat) :
    Decidable (extent.Contains address) :=
  inferInstanceAs (Decidable (_ ∧ _))

@[simp]
theorem Extent.contains_mk (offset length address : Nat) :
    Extent.Contains ⟨offset, length⟩ address ↔
      offset ≤ address ∧ address < offset + length :=
  Iff.rfl

@[simp]
theorem Extent.stop_mk (offset length : Nat) :
    Extent.stop ⟨offset, length⟩ = offset + length :=
  rfl

/-- Two extents have no address in common. -/
def Extent.Disjoint (left right : Extent) : Prop :=
  left.stop ≤ right.offset ∨ right.stop ≤ left.offset

theorem Extent.Disjoint.symm
    {left right : Extent}
    (disjoint : left.Disjoint right) :
    right.Disjoint left :=
  Or.symm disjoint

theorem Extent.Disjoint.not_contains
    {left right : Extent}
    (disjoint : left.Disjoint right)
    {address : Nat}
    (member : left.Contains address) :
    ¬ right.Contains address := by
  intro other
  simp only [Extent.Disjoint, Extent.Contains] at disjoint member other
  omega

/-- Non-empty extents without a common address are ordered one way or the other. -/
theorem Extent.disjoint_of_not_contains
    {left right : Extent}
    (leftPositive : 0 < left.length)
    (rightPositive : 0 < right.length)
    (apart : ∀ address, left.Contains address → ¬ right.Contains address) :
    left.Disjoint right := by
  by_contra overlap
  simp only [Extent.Disjoint, Extent.stop, not_or, Nat.not_le] at overlap
  apply apart (max left.offset right.offset)
  · simp only [Extent.Contains, Extent.stop]
    omega
  · simp only [Extent.Contains, Extent.stop]
    omega

/-- Some extent of the list contains the address. -/
def Covers (extents : List Extent) (address : Nat) : Prop :=
  ∃ extent ∈ extents, extent.Contains address

instance (extents : List Extent) (address : Nat) :
    Decidable (Covers extents address) :=
  inferInstanceAs (Decidable (∃ extent ∈ extents, _))

@[simp]
theorem not_covers_nil (address : Nat) :
    ¬ Covers [] address := by
  simp [Covers]

@[simp]
theorem covers_cons
    (extent : Extent) (rest : List Extent) (address : Nat) :
    Covers (extent :: rest) address ↔
      extent.Contains address ∨ Covers rest address := by
  simp [Covers]

@[simp]
theorem covers_append
    (left right : List Extent) (address : Nat) :
    Covers (left ++ right) address ↔
      Covers left address ∨ Covers right address := by
  simp [Covers, or_and_right, exists_or]

/-- Sorted, pairwise disjoint and free of empty extents. -/
structure Tidy (extents : List Extent) : Prop where
  positive : ∀ extent ∈ extents, 0 < extent.length
  ordered : extents.Pairwise fun left right => left.stop ≤ right.offset

theorem tidy_nil : Tidy [] :=
  ⟨by simp, List.Pairwise.nil⟩

theorem tidy_singleton {extent : Extent} (positive : 0 < extent.length) :
    Tidy [extent] :=
  ⟨by simpa using positive, List.pairwise_singleton _ _⟩

theorem tidy_cons_iff (extent : Extent) (rest : List Extent) :
    Tidy (extent :: rest) ↔
      0 < extent.length ∧
        (∀ next ∈ rest, extent.stop ≤ next.offset) ∧ Tidy rest := by
  constructor
  · intro tidy
    obtain ⟨first, later⟩ := List.pairwise_cons.mp tidy.ordered
    exact
      ⟨tidy.positive extent (by simp), first,
        ⟨fun next member => tidy.positive next (by simp [member]), later⟩⟩
  · rintro ⟨positive, first, later⟩
    refine ⟨?_, List.pairwise_cons.mpr ⟨first, later.ordered⟩⟩
    intro next member
    rcases List.mem_cons.mp member with rfl | tailMember
    · exact positive
    · exact later.positive next tailMember

theorem Tidy.tail
    {extent : Extent} {rest : List Extent}
    (tidy : Tidy (extent :: rest)) :
    Tidy rest :=
  ((tidy_cons_iff extent rest).mp tidy).2.2

/-- Every address of the tail of a tidy list lies after its head. -/
theorem Tidy.stop_le_of_covers
    {extent : Extent} {rest : List Extent}
    (tidy : Tidy (extent :: rest))
    {address : Nat}
    (covered : Covers rest address) :
    extent.stop ≤ address := by
  obtain ⟨next, member, inside⟩ := covered
  have later := ((tidy_cons_iff extent rest).mp tidy).2.1 next member
  exact later.trans inside.1

/-- Appending an extent that starts after all others keeps a list tidy. -/
theorem Tidy.append_singleton
    {extents : List Extent}
    (tidy : Tidy extents)
    {extent : Extent}
    (positive : 0 < extent.length)
    (after : ∀ previous ∈ extents, previous.stop ≤ extent.offset) :
    Tidy (extents ++ [extent]) := by
  refine ⟨?_, ?_⟩
  · intro next member
    rcases List.mem_append.mp member with old | new
    · exact tidy.positive next old
    · rw [List.mem_singleton.mp new]
      exact positive
  · rw [List.pairwise_append]
    refine ⟨tidy.ordered, List.pairwise_singleton _ _, ?_⟩
    intro previous member last lastMember
    rw [List.mem_singleton.mp lastMember]
    exact after previous member

/-- An address is contained in at most one member of a tidy list. -/
theorem Tidy.unique
    {extents : List Extent}
    (tidy : Tidy extents)
    {left right : Extent}
    (leftMember : left ∈ extents)
    (rightMember : right ∈ extents)
    {address : Nat}
    (leftInside : left.Contains address)
    (rightInside : right.Contains address) :
    left = right := by
  induction extents with
  | nil => simp at leftMember
  | cons head rest induction =>
      have later := ((tidy_cons_iff head rest).mp tidy).2.1
      simp only [Extent.Contains] at leftInside rightInside
      rcases List.mem_cons.mp leftMember with rfl | leftTail
      · rcases List.mem_cons.mp rightMember with rfl | rightTail
        · rfl
        · have ordered := later right rightTail
          omega
      · rcases List.mem_cons.mp rightMember with rfl | rightTail
        · have ordered := later left leftTail
          omega
        · exact induction tidy.tail leftTail rightTail

/-- Extents that are replaced by tidy pieces of themselves stay tidy. -/
theorem Tidy.flatMap
    {α : Type*} {items : List α} {range : α → Extent}
    (tidy : Tidy (items.map range))
    {pieces : α → List Extent}
    (piecesTidy : ∀ item ∈ items, Tidy (pieces item))
    (within : ∀ item ∈ items, ∀ piece ∈ pieces item,
      (range item).offset ≤ piece.offset ∧ piece.stop ≤ (range item).stop) :
    Tidy (items.flatMap pieces) := by
  refine ⟨fun piece member => ?_, List.pairwise_flatMap.mpr ⟨?_, ?_⟩⟩
  · obtain ⟨item, itemMember, inPieces⟩ := List.mem_flatMap.mp member
    exact (piecesTidy item itemMember).positive piece inPieces
  · exact fun item member => (piecesTidy item member).ordered
  · refine (List.pairwise_map.mp tidy.ordered).imp_of_mem
      fun leftMember rightMember ordered left inLeft right inRight => ?_
    exact (within _ leftMember left inLeft).2.trans
      (ordered.trans (within _ rightMember right inRight).1)

end Extents
