import Mathlib.Data.Finset.Card
import Mathlib.Data.Fintype.EquivFin
import Mathlib.Data.Set.Finite.Basic
import Mathlib.Logic.Relation
import Mathlib.Order.WellFounded

/-!
# Exploring a graph

A depth-first search that puts every vertex that it comes to behind a list, and
goes on to the children that are not in the list yet, lists everything that can
be reached.

A recursion that remembers nothing ends where the graph of its calls is finite
and has no cycle, and only there.
-/

namespace Exploration

variable {α : Type*}

/-! ## Listing what can be reached -/

section Listing

variable (children : α → List α)

/-- A list has all children of its elements, those of some elements apart. -/
def ClosedBeyond (except listed : List α) : Prop :=
  ∀ vertex ∈ listed, vertex ∉ except → ∀ child ∈ children vertex, child ∈ listed

variable {children} in
/-- A closed list has everything that can be reached from its elements. -/
theorem mem_of_reachable
    {listed : List α} (closed : ClosedBeyond children [] listed) {vertex other : α}
    (member : vertex ∈ listed)
    (reachable : Relation.ReflTransGen (fun parent child => child ∈ children parent) vertex other) :
    other ∈ listed := by
  induction reachable with
  | refl => exact member
  | tail _ step reached => exact closed _ reached (List.not_mem_nil) _ step

variable [DecidableEq α]

/-- The depth-first search from a vertex, with a bound on its depth. -/
def explore : Nat → α → List α → Option (List α)
  | 0, _, _ => none
  | depth + 1, vertex, listed =>
      (children vertex).foldlM
        (fun listed child => if child ∈ listed then some listed else explore depth child listed)
        (listed ++ [vertex])

/-- The vertices that are not in a list become fewer when the list becomes longer. -/
theorem card_unlisted_le (all : Finset α) {listed longer : List α} (within : listed ⊆ longer) :
    (all.filter (· ∉ longer)).card ≤ (all.filter (· ∉ listed)).card :=
  Finset.card_le_card fun vertex unlisted => by
    obtain ⟨inAll, fresh⟩ := Finset.mem_filter.mp unlisted
    exact Finset.mem_filter.mpr ⟨inAll, fun known => fresh (within known)⟩

theorem card_unlisted_lt
    {all : Finset α} {listed : List α} {vertex : α} (inAll : vertex ∈ all)
    (fresh : vertex ∉ listed) :
    (all.filter (· ∉ listed ++ [vertex])).card < (all.filter (· ∉ listed)).card := by
  refine Finset.card_lt_card ⟨fun other unlisted => ?_, fun within => ?_⟩
  · obtain ⟨otherInAll, otherFresh⟩ := Finset.mem_filter.mp unlisted
    exact Finset.mem_filter.mpr
      ⟨otherInAll, fun known => otherFresh (List.mem_append_left _ known)⟩
  · have unlisted := Finset.mem_filter.mp (within (Finset.mem_filter.mpr ⟨inAll, fresh⟩))
    exact unlisted.2 (List.mem_append_right _ List.mem_cons_self)

variable {children}

/-- What the search of a vertex adds to a list. -/
structure Explored (children : α → List α) (vertex : α) (listed result : List α) : Prop where
  keeps : listed ⊆ result
  lists : vertex ∈ result
  closed : ClosedBeyond children listed result
  below : ∀ child ∈ children vertex, child ∈ result

/-- The search of some children of a vertex, in a list that is growing. -/
theorem exists_explore_children
    (all : Finset α) (depth : Nat) (base : List α)
    (recursive : ∀ child ∈ all, ∀ listed : List α, base ⊆ listed → child ∉ listed →
      ∃ result, explore children depth child listed = some result ∧
        Explored children child listed result)
    (rest : List α) (inAll : ∀ child ∈ rest, child ∈ all) :
    ∀ listed : List α, base ⊆ listed →
      ∃ result, rest.foldlM (fun listed child =>
          if child ∈ listed then some listed else explore children depth child listed) listed =
            some result ∧
        listed ⊆ result ∧ ClosedBeyond children listed result ∧
          ∀ child ∈ rest, child ∈ result := by
  induction rest with
  | nil =>
      intro listed _
      exact ⟨listed, rfl, List.Subset.refl _,
        fun vertex member fresh => absurd member fresh, fun child member => by cases member⟩
  | cons first rest induction =>
      intro listed grown
      obtain ⟨middle, ran, keeps, closed, lists⟩ : ∃ middle,
          (if first ∈ listed then some listed else explore children depth first listed) =
            some middle ∧
          listed ⊆ middle ∧ ClosedBeyond children listed middle ∧ first ∈ middle := by
        by_cases known : first ∈ listed
        · exact ⟨listed, if_pos known, List.Subset.refl _,
            fun vertex member fresh => absurd member fresh, known⟩
        · obtain ⟨middle, ran, explored⟩ :=
            recursive first (inAll first List.mem_cons_self) listed grown known
          exact ⟨middle, (if_neg known).trans ran, explored.keeps, explored.closed,
            explored.lists⟩
      obtain ⟨result, ranRest, keepsRest, closedRest, listsRest⟩ :=
        induction (fun child member => inAll child (List.mem_cons_of_mem first member)) middle
          (List.Subset.trans grown keeps)
      refine ⟨result, ?_, List.Subset.trans keeps keepsRest, ?_, ?_⟩
      · rw [List.foldlM_cons, ran]
        exact ranRest
      · intro vertex member fresh child isChild
        by_cases early : vertex ∈ middle
        · exact keepsRest (closed vertex early fresh child isChild)
        · exact closedRest vertex member early child isChild
      · intro child member
        rcases List.mem_cons.mp member with rfl | inRest
        · exact keepsRest lists
        · exact listsRest child inRest

/-- The search ends when its depth is at least the number of vertices that are not listed. -/
theorem exists_explore
    {all : Finset α} (closed : ∀ vertex ∈ all, ∀ child ∈ children vertex, child ∈ all)
    (depth : Nat) :
    ∀ vertex ∈ all, ∀ listed : List α,
      (all.filter (· ∉ listed ++ [vertex])).card < depth →
        ∃ result, explore children depth vertex listed = some result ∧
          Explored children vertex listed result := by
  induction depth with
  | zero => exact fun vertex _ listed enough => absurd enough (Nat.not_lt_zero _)
  | succ depth induction =>
      intro vertex inAll listed enough
      obtain ⟨result, ran, keeps, closedRest, lists⟩ :=
        exists_explore_children all depth (listed ++ [vertex])
          (fun child childInAll longer grown fresh => induction child childInAll longer (by
            have fewer := card_unlisted_lt childInAll fresh
            have shorter := card_unlisted_le all grown
            omega))
          (children vertex) (closed vertex inAll) (listed ++ [vertex]) (List.Subset.refl _)
      refine ⟨result, ran, List.Subset.trans (List.subset_append_left _ _) keeps,
        keeps (List.mem_append_right _ List.mem_cons_self), ?_, lists⟩
      intro other member fresh child isChild
      by_cases same : other = vertex
      · subst same
        exact lists child isChild
      · refine closedRest other member (fun known => ?_) child isChild
        rcases List.mem_append.mp known with early | single
        · exact fresh early
        · exact same (List.mem_singleton.mp single)

/-- The search in a closed list gives a closed list. -/
theorem Explored.closed_result
    {vertex : α} {listed result : List α} (explored : Explored children vertex listed result)
    (closed : ClosedBeyond children [] listed) : ClosedBeyond children [] result := by
  intro other member _ child isChild
  by_cases known : other ∈ listed
  · exact explored.keeps (closed other known List.not_mem_nil child isChild)
  · exact explored.closed other member known child isChild

end Listing

/-! ## Recursions that end -/

section Calls

variable {calls : α → α → Prop}

/-- No call that is reached leads back to itself. -/
def Acyclic (calls : α → α → Prop) (start : α) : Prop :=
  ∀ call, Relation.ReflTransGen calls start call → ¬ Relation.TransGen calls call call

/-- The calls that are reached cannot go on for ever if they are finitely many and acyclic. -/
theorem acc_of_acyclic
    {start : α} (finite : {call | Relation.ReflTransGen calls start call}.Finite)
    (acyclic : Acyclic calls start) : Acc (fun inner outer => calls outer inner) start := by
  let reached := {call | Relation.ReflTransGen calls start call}
  have : Finite reached := finite
  let nested (inner outer : reached) : Prop := Relation.TransGen calls outer.1 inner.1
  have : IsTrans reached nested := ⟨fun _ _ _ first second => second.trans first⟩
  have : Std.Irrefl nested := ⟨fun call cycle => acyclic call.1 call.2 cycle⟩
  have wellFounded : WellFounded nested := Finite.wellFounded_of_trans_of_irrefl nested
  suffices every : ∀ call : reached, Acc (fun inner outer => calls outer inner) call.1 from
    every ⟨start, Relation.ReflTransGen.refl⟩
  intro call
  induction call using wellFounded.induction with
  | h call induction =>
    refine Acc.intro _ fun inner step => ?_
    exact induction ⟨inner, call.2.tail step⟩ (Relation.TransGen.single step)

/-- A recursion that ends within some number of calls has no cycle. -/
theorem acyclic_of_endsWithin
    {endsWithin : Nat → α → Prop} (never : ∀ call, ¬ endsWithin 0 call)
    (step : ∀ {bound outer inner}, calls outer inner → endsWithin (bound + 1) outer →
      endsWithin bound inner)
    {bound : Nat} {start : α} (ends : endsWithin bound start) : Acyclic calls start := by
  have shorter {outer inner : α} (chain : Relation.TransGen calls outer inner) :
      ∀ bound, endsWithin bound outer → ∃ less < bound, endsWithin less inner := by
    induction chain with
    | single call =>
      intro bound ends
      cases bound with
      | zero => exact absurd ends (never _)
      | succ bound => exact ⟨bound, Nat.lt_succ_self bound, step call ends⟩
    | tail _ call induction =>
      intro bound ends
      obtain ⟨less, isLess, ends⟩ := induction bound ends
      cases less with
      | zero => exact absurd ends (never _)
      | succ less => exact ⟨less, Nat.lt_of_succ_lt isLess, step call ends⟩
  intro call reached cycle
  obtain ⟨bound, ends⟩ : ∃ bound, endsWithin bound call := by
    rcases Relation.reflTransGen_iff_eq_or_transGen.mp reached with rfl | chain
    · exact ⟨bound, ends⟩
    · obtain ⟨less, -, ends⟩ := shorter chain bound ends
      exact ⟨less, ends⟩
  induction bound using Nat.strong_induction_on with
  | _ bound induction =>
    obtain ⟨less, isLess, ends⟩ := shorter cycle bound ends
    exact induction less isLess ends

/-! ### Calls of two kinds

Some calls move forward by a measure, and only a call to the same place keeps
it.  The others are jumps. -/

section Jumps

variable {forward jump : α → α → Prop} {measure : α → Nat}
  (ahead : ∀ outer inner, forward outer inner → measure outer ≤ measure inner)

include ahead

/-- A chain of calls has a jump, or it moves forward. -/
theorem exists_jump_or_forward
    {outer inner : α}
    (chain : Relation.TransGen (fun outer inner => forward outer inner ∨ jump outer inner)
      outer inner) :
    (∃ before after, jump before after ∧
      Relation.ReflTransGen (fun outer inner => forward outer inner ∨ jump outer inner)
        outer before ∧
      Relation.ReflTransGen (fun outer inner => forward outer inner ∨ jump outer inner)
        after inner) ∨
    ∃ middle, forward outer middle ∧ measure middle ≤ measure inner := by
  induction chain with
  | single call =>
    rcases call with moves | jumps
    · exact Or.inr ⟨_, moves, le_rfl⟩
    · exact Or.inl ⟨_, _, jumps, Relation.ReflTransGen.refl, Relation.ReflTransGen.refl⟩
  | tail chain call induction =>
    rcases induction with ⟨before, after, jumps, early, late⟩ | ⟨middle, moves, within⟩
    · exact Or.inl ⟨before, after, jumps, early, late.tail call⟩
    · rcases call with further | jumps
      · exact Or.inr ⟨middle, moves, within.trans (ahead _ _ further)⟩
      · exact Or.inl ⟨_, _, jumps, chain.to_reflTransGen, Relation.ReflTransGen.refl⟩

/-- Calls of two kinds have a cycle where a call stays in its place or what is jumped to leads back. -/
theorem acyclic_iff
    (stays : ∀ outer inner, forward outer inner → measure inner ≤ measure outer →
      outer = inner) (start : α) :
    Acyclic (fun outer inner => forward outer inner ∨ jump outer inner) start ↔
      ∀ call, Relation.ReflTransGen (fun outer inner => forward outer inner ∨ jump outer inner)
          start call →
        ¬ forward call call ∧ ∀ target, jump call target →
          ¬ Relation.ReflTransGen
            (fun outer inner => forward outer inner ∨ jump outer inner) target call := by
  constructor
  · intro acyclic call reached
    exact ⟨fun still => acyclic call reached (Relation.TransGen.single (Or.inl still)),
      fun target jumps back =>
        acyclic call reached (Relation.TransGen.head' (Or.inr jumps) back)⟩
  · intro leaves call reached cycle
    rcases exists_jump_or_forward ahead cycle with
      ⟨before, after, jumps, early, late⟩ | ⟨middle, moves, within⟩
    · exact (leaves before (reached.trans early)).2 after jumps (late.trans early)
    · obtain rfl := stays _ _ moves within
      exact (leaves call reached).1 moves

end Jumps

end Calls

end Exploration
