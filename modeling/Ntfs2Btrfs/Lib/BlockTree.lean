import Mathlib.Data.List.Forall2
import Mathlib.Data.List.Flatten

/-!
# Trees of addressed blocks

A tree is kept in blocks that a store maps numbers to.  A leaf has entries, and
a node has the first key below each child with the child's number.  A block at a
level holds entries when all leaves below it are that many steps away and the
entries, one leaf after the other, are those.

A walk visits the entries below a block in order, until the visitor stops or
fails; a store may fail as well.  Trees are built one layer over the other.
-/

namespace BlockTrees

variable {ε κ σ φ : Type*}

/-- A leaf, or a node with its children. -/
inductive Block (ε κ : Type*) where
  | leaf (entries : List ε)
  | node (children : List (κ × Nat))

section Holds

variable (key : ε → κ) (stored : Nat → Except φ (Block ε κ))

/-- The entries below a block at a level. -/
def Holds : Nat → Nat → List ε → Prop
  | 0, address, entries => stored address = .ok (.leaf entries)
  | level + 1, address, entries =>
      ∃ children parts, stored address = .ok (.node children) ∧
        List.Forall₂ (fun part child =>
          part.head?.map key = some child.1 ∧ Holds level child.2 part) parts children ∧
        parts.flatten = entries

/-- A pointer to a block, with the first key below it. -/
def Points (level : Nat) (part : List ε) (child : κ × Nat) : Prop :=
  part.head?.map key = some child.1 ∧ Holds key stored level child.2 part

theorem holds_succ_iff (level address : Nat) (entries : List ε) :
    Holds key stored (level + 1) address entries ↔
      ∃ children parts, stored address = .ok (.node children) ∧
        List.Forall₂ (Points key stored level) parts children ∧ parts.flatten = entries :=
  Iff.rfl

end Holds

/-- Changed entries with the same keys are held by a tree with changed leaves. -/
theorem Holds.map
    {ψ : Type*} {key : ε → κ} {change : ε → ε} {stored : Nat → Except φ (Block ε κ)}
    {changed : Nat → Except ψ (Block ε κ)} (keys : ∀ entry, key (change entry) = key entry)
    (leaves : ∀ address entries, stored address = .ok (.leaf entries) →
      changed address = .ok (.leaf (entries.map change)))
    (nodes : ∀ address children, stored address = .ok (.node children) →
      changed address = .ok (.node children))
    {level address : Nat} {entries : List ε} (holds : Holds key stored level address entries) :
    Holds key changed level address (entries.map change) := by
  induction level generalizing address entries with
  | zero => exact leaves address entries holds
  | succ level ih =>
    obtain ⟨children, parts, node, points, rfl⟩ := holds
    refine ⟨children, parts.map (List.map change), nodes address children node, ?_,
      List.map_flatten.symm⟩
    rw [List.forall₂_map_left_iff]
    refine points.imp fun part child point => ⟨?_, ih point.2⟩
    rw [← point.1, List.head?_map, Option.map_map]
    exact congrArg (Option.map · part.head?) (funext keys)

/-! ## Visiting entries -/

section Visit

variable (visit : ε → σ → Except φ (Bool × σ))

/-- Visit one entry after the other, until the visitor says to stop. -/
def visitAll : List ε → σ → Except φ (Bool × σ)
  | [], state => .ok (true, state)
  | entry :: rest, state =>
      match visit entry state with
      | .error failure => .error failure
      | .ok (true, next) => visitAll rest next
      | .ok (false, next) => .ok (false, next)

theorem visitAll_append (front back : List ε) (state : σ) :
    visitAll visit (front ++ back) state =
      match visitAll visit front state with
      | .error failure => .error failure
      | .ok (true, next) => visitAll visit back next
      | .ok (false, next) => .ok (false, next) := by
  induction front generalizing state with
  | nil => rfl
  | cons entry rest ih =>
    rw [List.cons_append, visitAll, visitAll]
    cases visit entry state with
    | error failure => rfl
    | ok outcome =>
      obtain ⟨more, next⟩ := outcome
      cases more with
      | true => exact ih next
      | false => rfl

/-- A visitor that never stops folds over the entries. -/
theorem visitAll_of_continues
    {step : ε → σ → σ} (continues : ∀ entry state, visit entry state = .ok (true, step entry state))
    (entries : List ε) (state : σ) :
    visitAll visit entries state =
      .ok (true, entries.foldl (fun state entry => step entry state) state) := by
  induction entries generalizing state with
  | nil => rfl
  | cons entry rest ih =>
    rw [visitAll, continues]
    exact ih (step entry state)

/-- A visitor that passes over all entries but those of a kind, and stops at the first of them. -/
theorem visitAll_search
    {test : ε → Bool} {state : σ}
    (passes : ∀ entry, test entry = false → visit entry state = .ok (true, state))
    (stops : ∀ entry, test entry = true → ∀ next, visit entry state ≠ .ok (true, next))
    (entries : List ε) :
    visitAll visit entries state =
      match entries.find? test with
      | none => .ok (true, state)
      | some entry => visit entry state := by
  induction entries with
  | nil => rfl
  | cons entry rest ih =>
    rw [visitAll]
    cases found : test entry with
    | true =>
      rw [List.find?_cons_of_pos found]
      have ends := stops entry found
      cases visited : visit entry state with
      | error failure => exact visited.symm
      | ok outcome =>
        obtain ⟨more, next⟩ := outcome
        cases more with
        | true => exact absurd visited (ends next)
        | false => exact visited.symm
    | false =>
      rw [List.find?_cons_of_neg (Bool.eq_false_iff.mp found), passes entry found]
      exact ih

/-! ## Walking a tree -/

/-- Walk the children of a node. -/
def walkChildren (step : Nat → σ → Option (Except φ (Bool × σ))) :
    List (κ × Nat) → σ → Option (Except φ (Bool × σ))
  | [], state => some (.ok (true, state))
  | child :: rest, state =>
      match step child.2 state with
      | none => none
      | some (.error failure) => some (.error failure)
      | some (.ok (true, next)) => walkChildren step rest next
      | some (.ok (false, next)) => some (.ok (false, next))

/-- Walk the tree below a block, with a bound on its depth. -/
def walk (stored : Nat → Except φ (Block ε κ)) :
    Nat → Nat → σ → Option (Except φ (Bool × σ))
  | 0, _, _ => none
  | depth + 1, address, state =>
      match stored address with
      | .error failure => some (.error failure)
      | .ok (.leaf entries) => some (visitAll visit entries state)
      | .ok (.node children) => walkChildren (walk stored depth) children state

variable {key : ε → κ} {stored : Nat → Except φ (Block ε κ)}

theorem walkChildren_eq
    {step : Nat → σ → Option (Except φ (Bool × σ))} {parts : List (List ε)}
    {children : List (κ × Nat)}
    (steps : List.Forall₂ (fun part child => ∀ state,
      step child.2 state = some (visitAll visit part state)) parts children) (state : σ) :
    walkChildren step children state = some (visitAll visit parts.flatten state) := by
  induction steps generalizing state with
  | nil => rfl
  | @cons part child parts children first _ ih =>
    rw [walkChildren, first, List.flatten_cons, visitAll_append]
    cases visitAll visit part state with
    | error failure => rfl
    | ok outcome =>
      obtain ⟨more, next⟩ := outcome
      cases more with
      | true => exact ih next
      | false => rfl

/-- A walk visits the entries that the tree holds. -/
theorem walk_eq
    {level depth address : Nat} {entries : List ε}
    (holds : Holds key stored level address entries) (deep : level < depth) (state : σ) :
    walk visit stored depth address state = some (visitAll visit entries state) := by
  induction level generalizing depth address entries state with
  | zero =>
    obtain ⟨less, rfl⟩ : ∃ less, depth = less + 1 := ⟨depth - 1, by omega⟩
    have leaf : stored address = .ok (.leaf entries) := holds
    rw [walk, leaf]
  | succ level ih =>
    obtain ⟨less, rfl⟩ : ∃ less, depth = less + 1 := ⟨depth - 1, by omega⟩
    obtain ⟨children, parts, node, points, rfl⟩ := holds
    rw [walk, node]
    refine walkChildren_eq visit (points.imp fun part child point => ?_) state
    exact fun state => ih point.2 (by omega) state

end Visit

/-! ## Building layer over layer -/

section Layers

variable {key : ε → κ} {stored : Nat → Except φ (Block ε κ)} {level : Nat}

/-- One node over its children. -/
theorem Points.up
    {parts : List (List ε)} {children : List (κ × Nat)} {upper : κ × Nat}
    (points : List.Forall₂ (Points key stored level) parts children)
    (node : stored upper.2 = .ok (.node children))
    (first : children.head?.map Prod.fst = some upper.1) :
    Points key stored (level + 1) parts.flatten upper := by
  refine ⟨?_, children, parts, node, points, rfl⟩
  cases points with
  | nil => cases first
  | @cons part child _ _ point rest =>
    have head := point.1
    rw [← first]
    cases part with
    | nil => cases head
    | cons entry others => exact head

/-- A layer of nodes whose children are, one node after the other, the layer below. -/
theorem points_nodes
    {groups : List (List (κ × Nat))} {uppers : List (κ × Nat)}
    (nodes : List.Forall₂ (fun group upper =>
      stored upper.2 = .ok (.node group) ∧ group.head?.map Prod.fst = some upper.1)
      groups uppers)
    {parts : List (List ε)}
    (points : List.Forall₂ (Points key stored level) parts groups.flatten) :
    ∃ wholes, List.Forall₂ (Points key stored (level + 1)) wholes uppers ∧
      wholes.flatten = parts.flatten := by
  induction nodes generalizing parts with
  | nil =>
    rw [List.flatten_nil] at points
    rw [List.forall₂_nil_right_iff.mp points]
    exact ⟨[], List.Forall₂.nil, rfl⟩
  | @cons group upper groups uppers node _ ih =>
    rw [List.flatten_cons] at points
    have front := List.forall₂_take_append _ _ _ points
    have back := List.forall₂_drop_append _ _ _ points
    obtain ⟨wholes, later, flat⟩ := ih back
    refine ⟨(parts.take group.length).flatten :: wholes,
      List.Forall₂.cons (Points.up front node.1 node.2) later, ?_⟩
    rw [List.flatten_cons, flat, ← List.flatten_append, List.take_append_drop]

/-- The top of the tree. -/
theorem holds_of_points
    {parts : List (List ε)} {upper : κ × Nat}
    (points : List.Forall₂ (Points key stored level) parts [upper]) :
    Holds key stored level upper.2 parts.flatten := by
  obtain ⟨part, rest, point, none, rfl⟩ := List.forall₂_cons_right_iff.mp points
  rw [List.forall₂_nil_right_iff.mp none, List.flatten_cons, List.flatten_nil, List.append_nil]
  exact point.2

end Layers

end BlockTrees
