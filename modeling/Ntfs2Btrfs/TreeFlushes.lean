import Ntfs2Btrfs.TreeGrowth

/-!
# A pass is a chain of flushed blocks

Whatever `create_trees` does to its root and to the allocator, it does by giving
one block after the other an address.  What a flush keeps, a pass keeps.
-/

namespace Ntfs2Btrfs

open SortedMap

/-! ## Chains of flushes -/

/-- The states agree in all that a flush looks at and changes. -/
structure TreeState.SameTrees (state last : TreeState) : Prop where
  allocator : last.allocator = state.allocator
  trees : last.trees = state.trees
  addresses : last.addresses = state.addresses
  oldAddresses : last.oldAddresses = state.oldAddresses
  allocationsDone : last.allocationsDone = state.allocationsDone

theorem TreeState.SameTrees.refl (state : TreeState) : state.SameTrees state :=
  ⟨rfl, rfl, rfl, rfl, rfl⟩

theorem TreeState.SameTrees.trans
    {first second third : TreeState} (left : first.SameTrees second)
    (right : second.SameTrees third) : first.SameTrees third :=
  ⟨right.allocator.trans left.allocator, right.trees.trans left.trees,
    right.addresses.trans left.addresses, right.oldAddresses.trans left.oldAddresses,
    right.allocationsDone.trans left.allocationsDone⟩

/-- The blocks were flushed one after the other. -/
inductive Flushed (id : Nat) : TreeState → List TreeBlock → TreeState → Prop
  | done {state last : TreeState} (same : state.SameTrees last) : Flushed id state [] last
  | flush {state between next last : TreeState} {block : TreeBlock} {blocks : List TreeBlock}
      (same : state.SameTrees between)
      (flushed : flushTree id block.level block.body between = .ok next)
      (added : next.trees = between.trees ++ [block])
      (later : Flushed id next blocks last) : Flushed id state (block :: blocks) last

namespace Flushed

variable {id : Nat} {state next last : TreeState} {blocks more : List TreeBlock}

theorem refl (id : Nat) (state : TreeState) : Flushed id state [] state :=
  .done (TreeState.SameTrees.refl state)

/-- One flush. -/
theorem of_flush
    {level : Nat} {body : BlockBody} (flushed : flushTree id level body state = .ok next) :
    ∃ address, next.trees = state.trees ++ [⟨address, level, body⟩] ∧
      Flushed id state [⟨address, level, body⟩] next := by
  obtain ⟨address, trees, -, -, -⟩ := flushTree_ok flushed
  exact ⟨address, trees, .flush (TreeState.SameTrees.refl state) flushed trees (refl id next)⟩

/-- What is done to the other fields does not matter. -/
theorem of_same
    (same : state.SameTrees next) (flushed : Flushed id next blocks last) :
    Flushed id state blocks last := by
  cases flushed with
  | done rest => exact .done (same.trans rest)
  | flush rest flushed added later => exact .flush (same.trans rest) flushed added later

theorem trans
    (left : Flushed id state blocks next) (right : Flushed id next more last) :
    Flushed id state (blocks ++ more) last := by
  induction left with
  | done same => exact right.of_same same
  | flush same flushed added _ ih => exact .flush same flushed added (ih right)

/-- What every flush keeps is kept, if it does not depend on the other fields. -/
theorem preserves
    {P : TreeState → Prop} (chain : Flushed id state blocks last)
    (same : ∀ state last, TreeState.SameTrees state last → P state → P last)
    (flush : ∀ state next level body,
      flushTree id level body state = .ok next → P state → P next)
    (start : P state) : P last := by
  induction chain with
  | done agree => exact same _ _ agree start
  | flush agree flushed _ _ ih => exact ih (flush _ _ _ _ flushed (same _ _ agree start))

theorem trees (chain : Flushed id state blocks last) : last.trees = state.trees ++ blocks := by
  induction chain with
  | done same => rw [same.trees, List.append_nil]
  | flush same _ added _ ih => rw [ih, added, same.trees, List.append_assoc, List.singleton_append]

theorem addresses (chain : Flushed id state blocks last) :
    last.addresses = state.addresses ++ blocks.map fun block => (block.bytenr, block.level) := by
  induction chain with
  | done same => rw [same.addresses, List.map_nil, List.append_nil]
  | flush same flushed added _ ih =>
    obtain ⟨address, trees, addresses, -, -⟩ := flushTree_ok flushed
    have bytenr := List.append_cancel_left (trees.symm.trans added)
    rw [ih, addresses, same.addresses, List.append_assoc, List.singleton_append, List.map_cons,
      ← (List.cons.inj bytenr).1]

theorem extends_ (chain : Flushed id state blocks last) :
    state.addresses.IsPrefix last.addresses := by
  rw [chain.addresses]
  exact List.prefix_append _ _

end Flushed

/-! ## The loops of a pass -/

theorem leafLoop_flushed
    {id : Nat} {own : ItemMap} {turns : Nat} {position : Option BtrfsKey}
    {leaf final : OpenLeaf} {state last : TreeState}
    (ended : leafLoop id own turns position leaf state = some (.ok (final, last))) :
    ∃ blocks, Flushed id state blocks last ∧ ∀ block ∈ blocks, block.level = 0 := by
  induction turns generalizing position leaf state with
  | zero => cases ended
  | succ turns ih =>
    rcases leafLoop_ok_cases ended with ⟨-, equal⟩ | ⟨fewer, key, following, next, count, step,
      later⟩
    · cases equal
      exact ⟨[], Flushed.refl id last, fun block member => absurd member List.not_mem_nil⟩
    · cases count
      cases step with
      | fits found fitting => exact ih later
      | closes found full flushed kept small =>
        obtain ⟨address, -, first⟩ := Flushed.of_flush flushed
        obtain ⟨blocks, rest, leaves⟩ := ih later
        exact ⟨_, first.trans rest, List.forall_mem_cons.mpr ⟨rfl, leaves⟩⟩

theorem nodeLoop_flushed
    {id level : Nat} {blocks : List TreeBlock} {node final : OpenNode} {state last : TreeState}
    (ended : nodeLoop id level blocks node state = .ok (final, last)) :
    ∃ added, Flushed id state added last := by
  induction blocks generalizing node state with
  | nil =>
    cases ended
    exact ⟨[], Flushed.refl id last⟩
  | cons block rest ih =>
    rw [nodeLoop] at ended
    split_ifs at ended
    · cases ended
      exact ⟨[], Flushed.refl id last⟩
    · exact ih ended
    · cases flushed : flushTree id level (.node node.pointers) state with
      | error failure =>
        rw [flushed] at ended
        cases ended
      | ok next =>
        rw [flushed] at ended
        obtain ⟨address, -, first⟩ := Flushed.of_flush flushed
        obtain ⟨added, later⟩ := ih ended
        exact ⟨_, first.trans later⟩
    · exact ih ended

/-- A level is built by a loop over the blocks and, if pointers are left, one more flush. -/
theorem buildLevel_ok
    {id level added : Nat} {state next : TreeState}
    (built : buildLevel id level state = .ok (added, next)) :
    ∃ node middle, nodeLoop id level state.trees {} state = .ok (node, middle) ∧
      (node.pointers = [] ∧ added = node.treesAdded ∧ next = middle ∨
        node.pointers ≠ [] ∧ added = node.treesAdded + 1 ∧
          flushTree id level (.node node.pointers) middle = .ok next) := by
  rw [buildLevel] at built
  cases looped : nodeLoop id level state.trees {} state with
  | error failure =>
    rw [looped] at built
    cases built
  | ok outcome =>
    obtain ⟨node, middle⟩ := outcome
    rw [looped] at built
    change (if node.pointers = [] then _ else _) = _ at built
    refine ⟨node, middle, rfl, ?_⟩
    by_cases none_ : node.pointers = []
    · rw [if_pos none_] at built
      cases built
      exact Or.inl ⟨none_, rfl, rfl⟩
    · rw [if_neg none_] at built
      cases flushed : flushTree id level (.node node.pointers) middle with
      | error failure =>
        rw [flushed] at built
        cases built
      | ok last =>
        rw [flushed] at built
        cases built
        exact Or.inr ⟨none_, rfl, rfl⟩

theorem buildLevel_flushed
    {id level added : Nat} {state next : TreeState}
    (built : buildLevel id level state = .ok (added, next)) :
    ∃ blocks, Flushed id state blocks next := by
  obtain ⟨node, middle, looped, ⟨-, -, rfl⟩ | ⟨-, -, flushed⟩⟩ := buildLevel_ok built
  · exact nodeLoop_flushed looped
  · obtain ⟨blocks, first⟩ := nodeLoop_flushed looped
    obtain ⟨address, -, last⟩ := Flushed.of_flush flushed
    exact ⟨_, first.trans last⟩

/-- One turn of the loop over the levels. -/
theorem levelLoop_ok_cases
    {id turns : Nat} {state last : TreeState}
    (ended : levelLoop id turns state = some (.ok last)) :
    ∃ fewer added next, turns = fewer + 1 ∧
      buildLevel id (state.level + 1) { state with level := state.level + 1 } =
        .ok (added, next) ∧
      (added = 1 ∧ last = next ∨ added ≠ 1 ∧ levelLoop id fewer next = some (.ok last)) := by
  cases turns with
  | zero => cases ended
  | succ turns =>
    rw [levelLoop] at ended
    cases built : buildLevel id (state.level + 1) { state with level := state.level + 1 } with
    | error failure =>
      simp only [built] at ended
      cases ended
    | ok outcome =>
      obtain ⟨added, next⟩ := outcome
      simp only [built] at ended
      refine ⟨turns, added, next, rfl, rfl, ?_⟩
      split_ifs at ended with single
      · cases ended
        exact Or.inl ⟨single, rfl⟩
      · exact Or.inr ⟨single, ended⟩

theorem sameTrees_level (state : TreeState) (level : Nat) :
    state.SameTrees { state with level := level } :=
  ⟨rfl, rfl, rfl, rfl, rfl⟩

theorem levelLoop_flushed
    {id turns : Nat} {state last : TreeState}
    (ended : levelLoop id turns state = some (.ok last)) :
    ∃ blocks, Flushed id state blocks last := by
  induction turns generalizing state with
  | zero => cases ended
  | succ turns ih =>
    obtain ⟨fewer, added, next, count, built, ⟨-, rfl⟩ | ⟨-, later⟩⟩ := levelLoop_ok_cases ended
    · obtain ⟨blocks, first⟩ := buildLevel_flushed built
      exact ⟨blocks, first.of_same (sameTrees_level state _)⟩
    · cases count
      obtain ⟨blocks, first⟩ := buildLevel_flushed built
      obtain ⟨more, rest⟩ := ih later
      exact ⟨blocks ++ more, (first.trans rest).of_same (sameTrees_level state _)⟩

/--
A pass flushes the leaves but the last one, the last leaf, and then the levels
above, unless there is one leaf only.
-/
theorem createTrees_ok
    {id turns : Nat} {own : ItemMap} {start final : TreeState}
    (built : createTrees id own turns start = some (.ok final)) :
    ∃ leaf filled leaves, leafLoop id own turns none {} start = some (.ok (leaf, filled)) ∧
      flushTree id 0 (.leaf leaf.items) filled = .ok leaves ∧
      (leaves.trees.length = 1 ∧ final = TreeState.close { leaves with level := 0 } ∨
        leaves.trees.length ≠ 1 ∧
          ∃ last, levelLoop id turns { leaves with level := 0 } = some (.ok last) ∧
            final = last.close) := by
  rw [createTrees] at built
  rcases looped : leafLoop id own turns none {} start with _ | (failure | ⟨leaf, filled⟩)
  · rw [looped] at built
    cases built
  · rw [looped] at built
    cases built
  · simp only [looped, if_pos (leafLoop_flushes looped)] at built
    cases flushed : flushTree id 0 (.leaf leaf.items) filled with
    | error failure =>
      rw [flushed] at built
      cases built
    | ok leaves =>
      simp only [flushed] at built
      refine ⟨leaf, filled, leaves, rfl, flushed, ?_⟩
      split_ifs at built with single
      · cases built
        exact Or.inl ⟨single, rfl⟩
      · rcases levels : levelLoop id turns { leaves with level := 0 } with _ | (failure | last)
        · rw [levels] at built
          cases built
        · rw [levels] at built
          cases built
        · rw [levels] at built
          cases built
          exact Or.inr ⟨single, last, rfl, rfl⟩

theorem sameTrees_close (state : TreeState) : state.SameTrees state.close :=
  ⟨rfl, rfl, rfl, rfl, rfl⟩

/-- The whole pass is a chain of flushes. -/
theorem createTrees_flushed
    {id turns : Nat} {own : ItemMap} {start final : TreeState}
    (built : createTrees id own turns start = some (.ok final)) :
    ∃ blocks, Flushed id start blocks final := by
  obtain ⟨leaf, filled, leaves, looped, flushed, ends⟩ := createTrees_ok built
  obtain ⟨blocks, first, -⟩ := leafLoop_flushed looped
  obtain ⟨address, -, last⟩ := Flushed.of_flush flushed
  rcases ends with ⟨-, rfl⟩ | ⟨-, top, levels, rfl⟩
  · have closed : Flushed id leaves [] (TreeState.close { leaves with level := 0 }) :=
      .done ((sameTrees_level leaves 0).trans (sameTrees_close _))
    exact ⟨_, (first.trans last).trans closed⟩
  · obtain ⟨nodes, upper⟩ := levelLoop_flushed levels
    have closed : Flushed id top [] top.close := .done (sameTrees_close top)
    exact ⟨_, (first.trans last).trans
      ((upper.of_same (sameTrees_level leaves 0)).trans closed)⟩

end Ntfs2Btrfs
