import Mathlib.Order.Lattice
import Mathlib.Data.List.Basic

/-!
# Search trees

A node of a search tree is a sequence of entries, each of which may have a
subtree before it, and a last place without an entry, which may have a subtree
too.  A tree is what is left of a node from some entry on; nothing is said about
its depth or about the size of its nodes.

The entries have a key.  In an ascending tree a search that follows a single
path finds every entry.
-/

namespace SearchTrees

variable {ε κ : Type*}

/-- The entries of a node from some place on, with the subtrees before them. -/
inductive SearchTree (ε : Type*) where
  | lastLeaf
  | lastNode (child : SearchTree ε)
  | leaf (entry : ε) (rest : SearchTree ε)
  | node (child : SearchTree ε) (entry : ε) (rest : SearchTree ε)

namespace SearchTree

/-- The entries of a tree in order. -/
def inorder : SearchTree ε → List ε
  | lastLeaf => []
  | lastNode child => child.inorder
  | leaf entry rest => entry :: rest.inorder
  | node child entry rest => child.inorder ++ entry :: rest.inorder

/-- The entries without a subtree, in order. -/
def leaves : SearchTree ε → List ε
  | lastLeaf => []
  | lastNode child => child.leaves
  | leaf entry rest => entry :: rest.leaves
  | node child _ rest => child.leaves ++ rest.leaves

/-- The number of places of a tree. -/
def size : SearchTree ε → Nat
  | lastLeaf => 1
  | lastNode child => child.size + 1
  | leaf _ rest => rest.size + 1
  | node child _ rest => child.size + rest.size + 1

/-- Every entry is in a leaf. -/
def Flat : SearchTree ε → Prop
  | lastLeaf => True
  | lastNode child => child.Flat
  | leaf _ rest => rest.Flat
  | node _ _ _ => False

theorem size_pos (tree : SearchTree ε) : 0 < tree.size := by
  cases tree <;> exact Nat.succ_pos _

/-- A bound on the size of a tree is not zero. -/
theorem exists_eq_succ {tree : SearchTree ε} {bound : Nat} (enough : tree.size ≤ bound) :
    ∃ less, bound = less + 1 :=
  Nat.exists_eq_succ_of_ne_zero
    (Nat.pos_iff_ne_zero.mp (Nat.lt_of_lt_of_le tree.size_pos enough))

/-! ## Leaves and entries -/

theorem leaves_sublist (tree : SearchTree ε) : tree.leaves.Sublist tree.inorder := by
  induction tree with
  | lastLeaf => exact List.Sublist.refl _
  | lastNode child induction => exact induction
  | leaf entry rest induction => exact induction.cons_cons entry
  | node child entry rest childInduction restInduction =>
      exact childInduction.append (restInduction.cons entry)

/-- The leaves are all entries exactly when no entry has a subtree. -/
theorem leaves_eq_inorder_iff (tree : SearchTree ε) :
    tree.leaves = tree.inorder ↔ tree.Flat := by
  induction tree with
  | lastLeaf => exact iff_of_true rfl trivial
  | lastNode child induction => exact induction
  | leaf entry rest induction =>
      rw [leaves, inorder, List.cons_inj_right]
      exact induction
  | node child entry rest _ _ =>
      refine iff_of_false (fun same => ?_) id
      have lengths := congrArg List.length same
      have childLength := child.leaves_sublist.length_le
      have restLength := rest.leaves_sublist.length_le
      rw [leaves, inorder, List.length_append, List.length_append, List.length_cons] at lengths
      omega

/-! ## Searching -/

section Search

variable [LinearOrder κ] (key : ε → κ)

/-- The keys of the entries ascend. -/
def Ascending (tree : SearchTree ε) : Prop :=
  tree.inorder.Pairwise fun left right => key left < key right

/-- The search along a single path. -/
def search (wanted : κ) : SearchTree ε → Option ε
  | lastLeaf => none
  | lastNode child => child.search wanted
  | leaf entry rest =>
      if key entry = wanted then some entry
      else if wanted < key entry then none
      else rest.search wanted
  | node child entry rest =>
      if key entry = wanted then some entry
      else if key entry < wanted then rest.search wanted
      else child.search wanted

variable {key}

theorem Ascending.leaf
    {entry : ε} {rest : SearchTree ε} (ascending : (leaf entry rest).Ascending key) :
    (∀ later ∈ rest.inorder, key entry < key later) ∧ rest.Ascending key :=
  List.pairwise_cons.mp ascending

theorem Ascending.node
    {child : SearchTree ε} {entry : ε} {rest : SearchTree ε}
    (ascending : (node child entry rest).Ascending key) :
    child.Ascending key ∧ (∀ earlier ∈ child.inorder, key earlier < key entry) ∧
      (∀ later ∈ rest.inorder, key entry < key later) ∧ rest.Ascending key := by
  obtain ⟨childAscending, restAscending, across⟩ := List.pairwise_append.mp ascending
  obtain ⟨later, ascending⟩ := List.pairwise_cons.mp restAscending
  exact ⟨childAscending, fun earlier member => across earlier member entry List.mem_cons_self,
    later, ascending⟩

/-- The search finds an entry of an ascending tree exactly when it has the wanted key. -/
theorem search_eq_some_iff
    {tree : SearchTree ε} (ascending : tree.Ascending key) (wanted : κ) (found : ε) :
    tree.search key wanted = some found ↔ found ∈ tree.inorder ∧ key found = wanted := by
  induction tree with
  | lastLeaf => simp [search, inorder]
  | lastNode child induction => exact induction ascending
  | leaf entry rest induction =>
      obtain ⟨later, restAscending⟩ := ascending.leaf
      rw [search, inorder, List.mem_cons]
      split_ifs with here before
      · rw [Option.some.injEq]
        constructor
        · rintro rfl
          exact ⟨Or.inl rfl, here⟩
        · rintro ⟨rfl | member, same⟩
          · rfl
          · exact absurd (here.trans same.symm) (later found member).ne
      · refine iff_of_false (fun none_ => by cases none_) ?_
        rintro ⟨rfl | member, same⟩
        · exact here same
        · exact absurd (before.trans (later found member)) (by rw [same]; exact lt_irrefl _)
      · rw [induction restAscending]
        refine and_congr_left fun same => (or_iff_right ?_).symm
        rintro rfl
        exact here same
  | node child entry rest childInduction restInduction =>
      obtain ⟨childAscending, earlier, later, restAscending⟩ := ascending.node
      rw [search, inorder, List.mem_append, List.mem_cons]
      split_ifs with here after
      · rw [Option.some.injEq]
        constructor
        · rintro rfl
          exact ⟨Or.inr (Or.inl rfl), here⟩
        · rintro ⟨inChild | rfl | inRest, same⟩
          · exact absurd (same.trans here.symm) (earlier found inChild).ne
          · rfl
          · exact absurd (here.trans same.symm) (later found inRest).ne
      · rw [restInduction restAscending]
        refine and_congr_left fun same => ?_
        constructor
        · exact fun inRest => Or.inr (Or.inr inRest)
        · rintro (inChild | rfl | inRest)
          · exact absurd ((earlier found inChild).trans after) (by rw [same]; exact lt_irrefl _)
          · exact absurd same here
          · exact inRest
      · rw [childInduction childAscending]
        refine and_congr_left fun same => ?_
        constructor
        · exact Or.inl
        · rintro (inChild | rfl | inRest)
          · exact inChild
          · exact absurd same here
          · exact absurd (same ▸ later found inRest) after

theorem search_eq_none_iff
    {tree : SearchTree ε} (ascending : tree.Ascending key) (wanted : κ) :
    tree.search key wanted = none ↔ ∀ entry ∈ tree.inorder, key entry ≠ wanted := by
  rw [Option.eq_none_iff_forall_ne_some]
  constructor
  · exact fun nothing entry member same =>
      nothing entry ((search_eq_some_iff ascending wanted entry).mpr ⟨member, same⟩)
  · intro different entry found
    obtain ⟨member, same⟩ := (search_eq_some_iff ascending wanted entry).mp found
    exact different entry member same

end Search

end SearchTree

end SearchTrees
