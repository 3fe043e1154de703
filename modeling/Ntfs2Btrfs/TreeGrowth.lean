import Ntfs2Btrfs.TreeScan

/-!
# The size of a tree grows with its items

A run of `create_trees` is a scan that gives the leaves, followed by levels of
pointers that get shorter until one block is left.  The number of blocks on
each level is a function of the number of leaves.

Hence a tree over more items has at least as many blocks on every level.  When
a root is built again over a grown map, all addresses of the first pass are
used again; if no block is added every one keeps its level.
-/

namespace Ntfs2Btrfs

open ByteStore
open Packing
open SortedMap

/-! ## The items that stay -/

/-- Every item of the map being walked keeps its place and size. -/
def ItemsKept (id : Nat) (own : ItemMap) (state next : TreeState) : Prop :=
  ((treeItems id own state).entries.map weighed).Sublist
    ((treeItems id own next).entries.map weighed)

theorem AddressSource.itemsKept
    {id level address : Nat} {state next : TreeState}
    (source : AddressSource id level address state next)
    (recyclable : Recyclable id state) (own : ItemMap) :
    ItemsKept id own state next := by
  by_cases extent : id = extentTreeObjectid
  · simp only [ItemsKept, treeItems, if_pos extent]
    cases source with
    | recycled oldLevel old space items =>
        have once := recyclable extent _ (old ▸ List.mem_cons_self)
        rw [items, weighed_recycle once]
    | allocated old left taken space fresh items =>
        rw [items]
        exact (sublist_emplace _ _ _).map weighed
  · rw [ItemsKept, treeItems, treeItems, if_neg extent, if_neg extent]

/-! ## One level of pointers -/

/-- What building a level, or a part of it, did. -/
structure LevelRun (id level : Nat) (own : ItemMap) (state last : TreeState)
    (blocks : List TreeBlock) : Prop where
  adds : AddsTrees state last blocks
  levels : ∀ block ∈ blocks, block.level = level
  level_eq : last.level = state.level
  recyclable : Recyclable id last
  kept : ItemsKept id own state last

theorem LevelRun.refl
    {id : Nat} {state : TreeState} (recyclable : Recyclable id state)
    (level : Nat) (own : ItemMap) :
    LevelRun id level own state state [] :=
  ⟨AddsTrees.refl state, by simp, rfl, recyclable, List.Sublist.refl _⟩

theorem LevelRun.trans
    {id level : Nat} {own : ItemMap} {first second third : TreeState}
    {earlier later : List TreeBlock}
    (left : LevelRun id level own first second earlier)
    (right : LevelRun id level own second third later) :
    LevelRun id level own first third (earlier ++ later) where
  adds := left.adds.trans right.adds
  levels := by
    intro block member
    rcases List.mem_append.mp member with member | member
    · exact left.levels block member
    · exact right.levels block member
  level_eq := right.level_eq.trans left.level_eq
  recyclable := right.recyclable
  kept := left.kept.trans right.kept

/-- Flushing a block is a run that adds it. -/
theorem flushTree_run
    {id level : Nat} {body : BlockBody} {state next : TreeState}
    (flushed : flushTree id level body state = .ok next)
    (recyclable : Recyclable id state) (own : ItemMap) :
    ∃ block : TreeBlock, LevelRun id level own state next [block] := by
  rcases flushTree_ok flushed with ⟨address, trees, addresses, level_eq, source⟩
  refine ⟨⟨address, level, body⟩, source.addsTree trees addresses, ?_, level_eq,
    source.recyclable recyclable, source.itemsKept recyclable own⟩
  intro block member
  rw [List.mem_singleton.mp member]

/-- A block that the loop over the blocks makes a pointer to. -/
def IsChild (level : Nat) (block : TreeBlock) : Bool :=
  level - 1 ≤ block.level

/-- The loop over the blocks packs one pointer for each block of the level below. -/
theorem nodeLoop_run
    {id level : Nat} (own : ItemMap) {blocks : List TreeBlock} {node final : OpenNode}
    {state last : TreeState} (used : Nat)
    (ended : nodeLoop id level blocks node state = .ok (final, last))
    (lower : ∀ block ∈ blocks, block.level < level)
    (recyclable : Recyclable id state)
    (room : node.spaceLeft + used = blockSpace) :
    ∃ added finalUsed,
      LevelRun id level own state last added ∧
        final.spaceLeft + finalUsed = blockSpace ∧
        final.treesAdded = node.treesAdded + added.length ∧
        pack blockSpace ⟨node.treesAdded, used⟩
            (List.replicate (blocks.countP (IsChild level)) keyPtrSize) =
          ⟨final.treesAdded, finalUsed⟩ ∧
        (final.pointers = [] → node.pointers = [] ∧ blocks.countP (IsChild level) = 0) := by
  induction blocks generalizing node state used with
  | nil =>
      cases ended
      exact ⟨[], used, LevelRun.refl recyclable level own, room, rfl, rfl,
        fun empty => ⟨empty, rfl⟩⟩
  | cons block rest ih =>
      have below := lower block List.mem_cons_self
      have rest_lower : ∀ other ∈ rest, other.level < level := fun other member =>
        lower other (List.mem_cons_of_mem _ member)
      rw [nodeLoop, if_neg (not_le.mpr below)] at ended
      by_cases skipped : block.level < level - 1
      · rw [if_pos skipped] at ended
        have other : ¬ IsChild level block = true := fun child =>
          not_lt_of_ge (of_decide_eq_true child) skipped
        rw [List.countP_cons_of_neg other]
        exact ih used ended rest_lower recyclable room
      · rw [if_neg skipped] at ended
        have child : IsChild level block = true := decide_eq_true (not_lt.mp skipped)
        rw [List.countP_cons_of_pos child, List.replicate_succ, pack_cons]
        by_cases full : keyPtrSize > node.spaceLeft
        · rw [if_pos full] at ended
          cases flushed : flushTree id level (.node node.pointers) state with
          | error error =>
              rw [flushed] at ended
              cases ended
          | ok next =>
              rw [flushed] at ended
              rcases flushTree_run flushed recyclable own with ⟨flushedBlock, run⟩
              have stage : ¬ Fill.Fits blockSpace ⟨node.treesAdded, used⟩ keyPtrSize := by
                rw [Fill.Fits]
                simp only
                omega
              rcases ih keyPtrSize ended rest_lower run.recyclable rfl with
                ⟨added, finalUsed, later, left, count, packed, empty⟩
              refine ⟨flushedBlock :: added, finalUsed, run.trans later, left, ?_, ?_, ?_⟩
              · rw [count, List.length_cons]
                simp only [OpenNode.add]
                omega
              · rw [Fill.put_of_not_fits stage]
                exact packed
              · intro none_left
                exact absurd (empty none_left).1 (by simp [OpenNode.add])
        · rw [if_neg full] at ended
          have stage : Fill.Fits blockSpace ⟨node.treesAdded, used⟩ keyPtrSize := by
            rw [Fill.Fits]
            simp only
            omega
          rcases ih (used + keyPtrSize) ended rest_lower recyclable
            (by simp only [OpenNode.add]; omega) with
            ⟨added, finalUsed, later, left, count, packed, empty⟩
          refine ⟨added, finalUsed, later, left, count, ?_, ?_⟩
          · rw [Fill.put_of_fits stage]
            exact packed
          · intro none_left
            exact absurd (empty none_left).1 (by simp [OpenNode.add])

/-- The number of blocks on a level. -/
def countAt (level : Nat) (blocks : List TreeBlock) : Nat :=
  blocks.countP fun block => block.level = level

theorem countAt_append (level : Nat) (left right : List TreeBlock) :
    countAt level (left ++ right) = countAt level left + countAt level right :=
  List.countP_append

theorem countAt_eq_length
    {level : Nat} {blocks : List TreeBlock} (all : ∀ block ∈ blocks, block.level = level) :
    countAt level blocks = blocks.length :=
  List.countP_eq_length.mpr fun block member => decide_eq_true (all block member)

theorem countAt_eq_zero
    {level : Nat} {blocks : List TreeBlock} (none : ∀ block ∈ blocks, block.level ≠ level) :
    countAt level blocks = 0 :=
  List.countP_eq_zero.mpr fun block member => by simpa using none block member

theorem countP_isChild
    {level : Nat} {blocks : List TreeBlock} (lower : ∀ block ∈ blocks, block.level ≤ level) :
    blocks.countP (IsChild (level + 1)) = countAt level blocks := by
  refine List.countP_congr fun block member => ?_
  have below := lower block member
  simp only [IsChild, decide_eq_true_eq]
  omega

theorem buildLevel_run
    {id level added : Nat} (own : ItemMap) {state next : TreeState}
    (built : buildLevel id level state = .ok (added, next))
    (lower : ∀ block ∈ state.trees, block.level < level)
    (recyclable : Recyclable id state)
    (children : state.trees.countP (IsChild level) ≠ 0) :
    ∃ blocks,
      LevelRun id level own state next blocks ∧
        blocks.length = added ∧
        added = bins blockSpace
          (List.replicate (state.trees.countP (IsChild level)) keyPtrSize) := by
  unfold buildLevel at built
  cases looped : nodeLoop id level state.trees {} state with
  | error error =>
      rw [looped] at built
      cases built
  | ok result =>
      rcases result with ⟨node, filled⟩
      rw [looped] at built
      rcases nodeLoop_run own 0 looped lower recyclable rfl with
        ⟨closed, used, run, left, count, packed, empty⟩
      have pointers : node.pointers ≠ [] := fun none_left => children (empty none_left).2
      change (if node.pointers = [] then _ else _) = _ at built
      rw [if_neg pointers] at built
      cases flushed : flushTree id level (.node node.pointers) filled with
      | error error =>
          rw [flushed] at built
          cases built
      | ok last =>
          rw [flushed] at built
          cases built
          rcases flushTree_run flushed run.recyclable own with ⟨block, tail⟩
          refine ⟨closed ++ [block], run.trans tail, ?_, ?_⟩
          · rw [List.length_append, List.length_singleton, count]
            simp
          · rw [bins, packed]

/-- The levels above the leaves: each has the nodes that its pointers need. -/
structure LevelsRun (id : Nat) (own : ItemMap) (nodes : Nat) (state last : TreeState)
    (blocks : List TreeBlock) : Prop where
  adds : AddsTrees state last blocks
  kept : ItemsKept id own state last
  above : ∀ block ∈ blocks, state.level < block.level
  ordered : blocks.Pairwise fun left right => left.level ≤ right.level
  counts : ∀ level,
    countAt (state.level + 1 + level) blocks =
      nodesAt blockSpace keyPtrSize nodes (level + 1)

theorem levelLoop_run
    {id turns : Nat} (own : ItemMap) {state last : TreeState}
    (ended : levelLoop id turns state = some (.ok last))
    (lower : ∀ block ∈ state.trees, block.level ≤ state.level)
    (recyclable : Recyclable id state)
    (several : 1 < countAt state.level state.trees) :
    ∃ blocks, LevelsRun id own (countAt state.level state.trees) state last blocks := by
  induction turns generalizing state with
  | zero => cases ended
  | succ turns ih =>
      rw [levelLoop] at ended
      cases built : buildLevel id (state.level + 1) { state with level := state.level + 1 } with
      | error error =>
          simp only [built] at ended
          cases ended
      | ok result =>
          rcases result with ⟨added, next⟩
          simp only [built] at ended
          have children := countP_isChild lower
          rcases buildLevel_run own built
            (fun block member => Nat.lt_succ_of_le (lower block member)) recyclable
            (by simp only [children]; omega) with ⟨blocks, run, length, added_eq⟩
          rw [children] at added_eq
          have growth : AddsTrees state next blocks :=
            ⟨run.adds.trees, run.adds.addresses, run.adds.old, run.adds.reused⟩
          have kept : ItemsKept id own state next := run.kept
          have next_level : next.level = state.level + 1 := run.level_eq
          have ordered : blocks.Pairwise fun left right => left.level ≤ right.level := by
            refine List.pairwise_of_forall_mem_list ?_
            intro left leftMember right rightMember
            rw [run.levels left leftMember, run.levels right rightMember]
          have above : ∀ block ∈ blocks, state.level < block.level := by
            intro block member
            rw [run.levels block member]
            exact Nat.lt_succ_self _
          have count_here : countAt (state.level + 1) blocks = added :=
            (countAt_eq_length run.levels).trans length
          have count_above : ∀ level, countAt (state.level + 1 + (level + 1)) blocks = 0 := by
            intro level
            refine countAt_eq_zero fun block member => ?_
            rw [run.levels block member]
            omega
          have unfolded : ∀ level,
              nodesAt blockSpace keyPtrSize (countAt state.level state.trees) (level + 1) =
                nodesAt blockSpace keyPtrSize added level := by
            intro level
            rw [nodesAt_succ_of_one_lt several, ← added_eq]
          by_cases single : added = 1
          · rw [if_pos single] at ended
            cases ended
            refine ⟨blocks, growth, kept, above, ordered, fun level => ?_⟩
            rw [unfolded]
            cases level with
            | zero => exact count_here
            | succ level =>
                rw [count_above, nodesAt_succ_of_le_one (le_of_eq single)]
          · rw [if_neg single] at ended
            have next_lower : ∀ block ∈ next.trees, block.level ≤ next.level := by
              intro block member
              rw [growth.trees] at member
              rw [next_level]
              rcases List.mem_append.mp member with old | new
              · exact (lower block old).trans (Nat.le_succ _)
              · exact le_of_eq (run.levels block new)
            have next_count : countAt next.level next.trees = added := by
              rw [next_level, growth.trees, countAt_append, count_here, countAt_eq_zero, zero_add]
              intro block member
              have below := lower block member
              omega
            have positive : 1 ≤ added := by
              rw [added_eq]
              exact Nat.le_add_left _ _
            rcases ih ended next_lower run.recyclable (by omega) with ⟨later, tail⟩
            have tail_above := tail.above
            have tail_counts := tail.counts
            rw [next_count] at tail_counts
            rw [next_level] at tail_above tail_counts
            refine ⟨blocks ++ later, growth.trans tail.adds, kept.trans tail.kept, ?_, ?_,
              fun level => ?_⟩
            · intro block member
              rcases List.mem_append.mp member with here | there
              · exact above block here
              · exact (Nat.lt_succ_self _).trans (tail_above block there)
            · refine List.pairwise_append.mpr ⟨ordered, tail.ordered, ?_⟩
              intro left leftMember right rightMember
              rw [run.levels left leftMember]
              exact (tail_above right rightMember).le
            · rw [unfolded, countAt_append]
              cases level with
              | zero =>
                  rw [Nat.add_zero, count_here, countAt_eq_zero, Nat.add_zero, nodesAt_zero]
                  intro block member
                  exact (tail_above block member).ne'
              | succ level =>
                  rw [count_above, zero_add, ← tail_counts level]
                  congr 1
                  omega

/-! ## A whole pass -/

/-- A leaf into which an item was put stays one that holds items. -/
theorem leafLoop_items
    {id turns : Nat} {own : ItemMap} {position : Option BtrfsKey} {leaf final : OpenLeaf}
    {state last : TreeState}
    (ended : leafLoop id own turns position leaf state = some (.ok (final, last)))
    (filled : leaf.items ≠ []) :
    final.items ≠ [] := by
  induction turns generalizing position leaf state with
  | zero => cases ended
  | succ turns ih =>
      rcases leafLoop_ok_cases ended with ⟨_, equal⟩ | ⟨fewer, key, following, next, count,
        step, later⟩
      · cases equal
        exact filled
      · cases count
        cases step <;> exact ih later (by simp [OpenLeaf.add])

/-- The last leaf is flushed: it holds items, or the map has none. -/
theorem leafLoop_flushes
    {id turns : Nat} {own : ItemMap} {final : OpenLeaf} {state last : TreeState}
    (ended : leafLoop id own turns none {} state = some (.ok (final, last))) :
    final.items ≠ [] ∨ (treeItems id own last).size = 0 := by
  rcases leafLoop_ok_cases ended with ⟨found, equal⟩ | ⟨fewer, key, following, next, _,
    step, later⟩
  · cases equal
    right
    have empty := after_eq_nil_of_next? found
    rw [after_none] at empty
    exact congrArg List.length empty
  · left
    cases step <;> exact leafLoop_items later (by simp [OpenLeaf.add])

/-- What a run of `create_trees` did, with the scan that gave the leaves. -/
structure TreeRun (id : Nat) (own : ItemMap) (start final : TreeState) (full : Nat) : Prop where
  scan : ∃ used, Scan blockSpace metadataCost (upcoming id start)
    ((treeItems id own start).entries.map weighed) ⟨0, 0⟩ ⟨full, used⟩
  items : (insertAll (inserted metadataCost (upcoming id start) 0 full)
      ((treeItems id own start).entries.map weighed)).Sublist
    ((treeItems id own final).entries.map weighed)
  adds : AddsTrees start final final.trees
  ordered : final.trees.Pairwise fun left right => left.level ≤ right.level
  counts : ∀ level,
    countAt level final.trees = nodesAt blockSpace keyPtrSize (full + 1) level

theorem createTrees_run
    {id turns : Nat} {own : ItemMap} {start final : TreeState}
    (built : createTrees id own turns start = some (.ok final))
    (cleared : start.trees = [])
    (recyclable : Recyclable id start) :
    ∃ full, TreeRun id own start final full := by
  unfold createTrees at built
  rcases looped : leafLoop id own turns none {} start with _ | (error | ⟨leaf, filled⟩)
  · rw [looped] at built
    cases built
  · rw [looped] at built
    cases built
  · simp only [looped, if_pos (leafLoop_flushes looped)] at built
    rcases leafLoop_run ⟨0, 0⟩ looped recyclable (fun count => by rw [Nat.zero_add]) rfl
      with ⟨blocks, run⟩
    rcases run.scan with ⟨used, _, scan⟩
    cases flushed : flushTree id 0 (.leaf leaf.items) filled with
    | error error =>
        rw [flushed] at built
        cases built
    | ok leaves =>
        simp only [flushed] at built
        rcases flushTree_run flushed run.recyclable own with ⟨block, tail⟩
        have growth : AddsTrees start leaves (blocks ++ [block]) := run.adds.trans tail.adds
        have trees : leaves.trees = blocks ++ [block] := by
          rw [growth.trees, cleared, List.nil_append]
        have zero : ∀ other ∈ leaves.trees, other.level = 0 := by
          intro other member
          rw [trees] at member
          rcases List.mem_append.mp member with inside | last
          · exact run.leaves other inside
          · exact tail.levels other last
        have count_zero : countAt 0 leaves.trees = blocks.length + 1 := by
          rw [countAt_eq_length zero, trees, List.length_append, List.length_singleton]
        have list_eq :
            ((treeItems id own start).after none).map weighed =
              (treeItems id own start).entries.map weighed := by
          rw [after_none]
        rw [list_eq, Nat.zero_add] at scan
        have items : (insertAll (inserted metadataCost (upcoming id start) 0 blocks.length)
              ((treeItems id own start).entries.map weighed)).Sublist
            ((treeItems id own leaves).entries.map weighed) := by
          have kept := tail.kept
          rw [ItemsKept, run.items, Nat.zero_add] at kept
          exact kept
        have ordered_leaves :
            leaves.trees.Pairwise fun left right => left.level ≤ right.level := by
          refine List.pairwise_of_forall_mem_list fun left leftMember right _ => ?_
          rw [zero left leftMember]
          exact Nat.zero_le _
        by_cases single : leaves.trees.length = 1
        · rw [if_pos single] at built
          cases built
          refine ⟨blocks.length, ⟨used, scan⟩, items, ?_, ordered_leaves, fun level => ?_⟩
          · have total : AddsTrees start leaves leaves.trees := by
              rw [trees]
              exact growth
            exact ⟨total.trees, total.addresses, total.old, total.reused⟩
          · change countAt level leaves.trees = _
            have one : blocks.length + 1 = 1 := by
              rw [← count_zero, countAt_eq_length zero, single]
            cases level with
            | zero => exact count_zero
            | succ level =>
                rw [nodesAt_succ_of_le_one (le_of_eq one)]
                refine countAt_eq_zero fun other member => ?_
                rw [zero other member]
                exact (Nat.succ_ne_zero level).symm
        · rw [if_neg single] at built
          rcases levels : levelLoop id turns { leaves with level := 0 } with _ | (error | last)
          · rw [levels] at built
            cases built
          · rw [levels] at built
            cases built
          · rw [levels] at built
            cases built
            have several : 1 < countAt 0 leaves.trees := by
              have length := countAt_eq_length zero
              omega
            rcases levelLoop_run own levels
              (fun other member => le_of_eq (zero other member)) tail.recyclable several with
              ⟨nodes, tower⟩
            have total : AddsTrees start last (blocks ++ [block] ++ nodes) :=
              growth.trans ⟨tower.adds.trees, tower.adds.addresses, tower.adds.old,
                tower.adds.reused⟩
            have all : last.trees = blocks ++ [block] ++ nodes := by
              rw [total.trees, cleared, List.nil_append]
            refine ⟨blocks.length, ⟨used, scan⟩, items.trans tower.kept, ?_, ?_, fun level => ?_⟩
            · rw [← all] at total
              exact ⟨total.trees, total.addresses, total.old, total.reused⟩
            · change last.trees.Pairwise _
              rw [all, ← trees]
              refine List.pairwise_append.mpr ⟨ordered_leaves, tower.ordered, ?_⟩
              intro left leftMember right _
              rw [zero left leftMember]
              exact Nat.zero_le _
            · change countAt level last.trees = _
              rw [all, ← trees, countAt_append]
              cases level with
              | zero =>
                  rw [countAt_eq_zero fun other member => (tower.above other member).ne', Nat.add_zero,
                    count_zero, nodesAt_zero]
              | succ level =>
                  have counted := tower.counts level
                  change countAt (0 + 1 + level) nodes = _ at counted
                  change _ = nodesAt _ _ (countAt 0 leaves.trees) _ at counted
                  rw [count_zero] at counted
                  rw [countAt_eq_zero, zero_add, ← counted]
                  · congr 1
                    omega
                  · intro other member
                    rw [zero other member]
                    exact (Nat.succ_ne_zero level).symm

/-! ## Two passes -/

/--
Every key of the smaller map is in the larger one with the same item size, the
levels of blocks disregarded.
-/
def Grown (smaller larger : ItemMap) : Prop :=
  ∀ entry ∈ smaller.entries, ∃ other ∈ larger.entries,
    other.1.withoutLevel = entry.1.withoutLevel ∧ other.2.length = entry.2.length

/-- A root as it is handed to `create_trees`; each block has one item at most. -/
structure Prepared (id : Nat) (own : ItemMap) (start : TreeState) : Prop where
  trees : start.trees = []
  addresses : start.addresses = []
  once : ∀ address, DescribedOnce (treeItems id own start) address

theorem Prepared.recyclable
    {id : Nat} {own : ItemMap} {start : TreeState} (prepared : Prepared id own start) :
    Recyclable id start := by
  intro extent entry _
  have once := prepared.once entry.1
  rwa [treeItems, if_pos extent] at once

/-- Without levels the keys of a map are still distinct. -/
theorem distinct_weighed
    {items : ItemMap} (once : ∀ address, DescribedOnce items address) :
    (items.entries.map weighed).Pairwise fun left right => left.1 < right.1 := by
  refine List.pairwise_map.mpr (items.sorted.imp_of_mem fun {left right} inLeft inRight before => ?_)
  refine lt_of_le_of_ne (BtrfsKey.withoutLevel_mono before.le) fun same => before.ne ?_
  have equal : left.1.withoutLevel = right.1.withoutLevel := same
  have types : left.1.type = right.1.type := congrArg (fun key => key.type) equal
  by_cases block : left.1.type = BtrfsKeyType.metadataItem
  · have described : left.1.withoutLevel = metadataKey left.1.objectid 0 :=
      (BtrfsKey.withoutLevel_eq_metadataKey_iff _ _).mpr
        ⟨(Nat.mod_eq_of_lt left.1.objectid_lt).symm, block⟩
    exact once left.1.objectid left.1 (mem_keys_iff.mpr ⟨_, inLeft⟩) right.1
      (mem_keys_iff.mpr ⟨_, inRight⟩) described (equal ▸ described)
  · have leftSame : left.1.withoutLevel = left.1 :=
      BtrfsKey.ext rfl rfl (if_neg block)
    have rightSame : right.1.withoutLevel = right.1 :=
      BtrfsKey.ext rfl rfl (if_neg fun found => block (types.trans found))
    exact leftSame.symm.trans (equal.trans rightSame)

theorem Grown.sublist
    {smaller larger : ItemMap} (grown : Grown smaller larger)
    (once : ∀ address, DescribedOnce smaller address) :
    (smaller.entries.map weighed).Sublist (larger.entries.map weighed) := by
  have sorted := sorted_weighed larger none
  rw [after_none] at sorted
  refine sublist_of_subset (distinct_weighed once) sorted fun item member => ?_
  rcases List.mem_map.mp member with ⟨entry, inside, rfl⟩
  rcases grown entry inside with ⟨other, found, key, size⟩
  refine List.mem_map.mpr ⟨other, found, Prod.ext key ?_⟩
  simp only [weighed, itemCost, size]

theorem TreeRun.counts_mono
    {id id' : Nat} {own own' : ItemMap} {start start' final final' : TreeState} {full full' : Nat}
    (run : TreeRun id own start final full) (run' : TreeRun id' own' start' final' full')
    (fewer : full ≤ full') (level : Nat) :
    countAt level final.trees ≤ countAt level final'.trees := by
  rw [run.counts, run'.counts]
  exact nodesAt_mono (Nat.add_le_add_right fewer 1) level

/-- The levels of the blocks, in the order in which they were added. -/
theorem count_levels (level : Nat) (blocks : List TreeBlock) :
    (blocks.map TreeBlock.level).count level = countAt level blocks := by
  rw [List.count, List.countP_map, countAt]
  refine List.countP_congr fun block _ => ?_
  simp

/-- Two passes over maps of which one holds the other. -/
theorem scan_grown
    {id : Nat} {own own' : ItemMap} {start start' final final' : TreeState} {full full' : Nat}
    (run : TreeRun id own start final full) (run' : TreeRun id own' start' final' full')
    (supply : ∀ count, upcoming id start count = upcoming id start' count)
    (inside : ((treeItems id own start).entries.map weighed).Sublist
      ((treeItems id own' start').entries.map weighed)) :
    full ≤ full' := by
  rcases run.scan with ⟨used, scan⟩
  rcases run'.scan with ⟨used', scan'⟩
  rw [← funext supply] at scan'
  have sorted := sorted_weighed (treeItems id own' start') none
  rw [after_none] at sorted
  exact Fill.closed_le (scan.mono scan' sorted inside)

/-- A pass over a map that holds what an earlier pass left. -/
theorem rescan_grown
    {id : Nat} {own own' : ItemMap} {start start' final final' : TreeState} {full full' : Nat}
    (run : TreeRun id own start final full) (run' : TreeRun id own' start' final' full')
    (inside : ((treeItems id own final).entries.map weighed).Sublist
      ((treeItems id own' start').entries.map weighed)) :
    full ≤ full' := by
  rcases run.scan with ⟨used, scan⟩
  rcases run'.scan with ⟨used', scan'⟩
  have sorted := sorted_weighed (treeItems id own start) none
  have sorted' := sorted_weighed (treeItems id own' start') none
  rw [after_none] at sorted sorted'
  rcases scan.packs sorted with ⟨items, chosen, _, packed⟩
  rcases scan'.packs sorted' with ⟨items', _, _, packed'⟩
  have visited :=
    ((sorted.insertAll_sublist chosen (List.Sublist.refl _)).trans run.items).trans
      (inside.trans (sublist_insertAll items' _))
  have stages := pack_mono blockSpace (visited.map Prod.snd) (le_refl (⟨0, 0⟩ : Fill))
  rw [packed, packed'] at stages
  exact Fill.closed_le stages

/-- The levels of one pass are among those of a pass with more blocks on each level. -/
theorem levels_subperm
    {blocks blocks' : List TreeBlock}
    (more : ∀ level, countAt level blocks ≤ countAt level blocks') :
    (blocks.map TreeBlock.level).Subperm (blocks'.map TreeBlock.level) := by
  refine List.subperm_ext_iff.mpr fun level _ => ?_
  rw [count_levels, count_levels]
  exact more level

/-- Two passes with as many blocks have the same levels in the same order. -/
theorem levels_eq
    {blocks blocks' : List TreeBlock}
    (more : ∀ level, countAt level blocks ≤ countAt level blocks')
    (ordered : blocks.Pairwise fun left right => left.level ≤ right.level)
    (ordered' : blocks'.Pairwise fun left right => left.level ≤ right.level)
    (unchanged : blocks'.length = blocks.length) :
    blocks'.map TreeBlock.level = blocks.map TreeBlock.level := by
  have lengths :
      (blocks'.map TreeBlock.level).length ≤ (blocks.map TreeBlock.level).length := by
    rw [List.length_map, List.length_map, unchanged]
  have permuted := (levels_subperm more).perm_of_length_le lengths
  exact (permuted.eq_of_pairwise' (List.pairwise_map.mpr ordered)
    (List.pairwise_map.mpr ordered')).symm

/--
Tree building is monotone.  Of two passes that find the same free space and
the same old addresses, the one over the larger map makes at least as many
blocks on every level.  The same holds of a pass over a map that has grown from
what an earlier pass left, and if that pass hands over its addresses then all
of them are used again; unless the number of blocks changes each one keeps its
level.
-/
theorem createTrees_grown
    {id turns : Nat} {own : ItemMap} {start final : TreeState}
    (built : createTrees id own turns start = some (.ok final))
    (prepared : Prepared id own start) :
    (∀ {own' : ItemMap} {turns' : Nat} {start' final' : TreeState},
      createTrees id own' turns' start' = some (.ok final') →
        Prepared id own' start' →
          Grown (treeItems id own start) (treeItems id own' start') →
            (id = extentTreeObjectid → start'.oldAddresses = start.oldAddresses ∧
              SameSupply start.allocator start'.allocator) →
              ∀ level, countAt level final.trees ≤ countAt level final'.trees) ∧
      ∀ {own' : ItemMap} {turns' : Nat} {start' final' : TreeState},
        createTrees id own' turns' start' = some (.ok final') →
          Prepared id own' start' →
            (∀ address, DescribedOnce (treeItems id own final) address) →
              Grown (treeItems id own final) (treeItems id own' start') →
                start'.oldAddresses = final.addresses →
                  (∀ level, countAt level final.trees ≤ countAt level final'.trees) ∧
                    final'.oldAddresses = [] ∧
                    (final.addresses.map Prod.fst).IsPrefix (final'.addresses.map Prod.fst) ∧
                    (final'.trees.length = final.trees.length →
                      final'.addresses = final.addresses) := by
  rcases createTrees_run built prepared.trees prepared.recyclable with ⟨full, run⟩
  constructor
  · intro own' turns' start' final' built' prepared' grown same
    rcases createTrees_run built' prepared'.trees prepared'.recyclable with ⟨full', run'⟩
    refine run.counts_mono run' (scan_grown run run' (fun count => ?_)
      (grown.sublist prepared.once))
    by_cases extent : id = extentTreeObjectid
    · rcases same extent with ⟨old, space⟩
      rw [upcoming, upcoming, old, space.supply]
    · rw [upcoming, upcoming, if_neg fun both => extent both.1, if_neg fun both => extent both.1]
  · intro own' turns' start' final' built' prepared' once grown handed
    rcases createTrees_run built' prepared'.trees prepared'.recyclable with ⟨full', run'⟩
    have more := run.counts_mono run' (rescan_grown run run' (grown.sublist once))
    have addresses := run.adds.addresses
    have addresses' := run'.adds.addresses
    rw [prepared.addresses, List.nil_append] at addresses
    rw [prepared'.addresses, List.nil_append] at addresses'
    have length_le : final.addresses.length ≤ final'.trees.length := by
      have lengths := (levels_subperm more).length_le
      rw [List.length_map, List.length_map] at lengths
      rwa [addresses, List.length_map]
    have places :
        final.addresses.map Prod.fst =
          (final'.addresses.map Prod.fst).take final.addresses.length := by
      have reused := run'.adds.reused
      rw [handed, List.take_of_length_le
        (show (final.addresses.map Prod.fst).length ≤ final'.trees.length by
          rwa [List.length_map])] at reused
      rw [← reused, addresses', List.map_map]
      rfl
    refine ⟨more, ?_, ?_, fun unchanged => ?_⟩
    · rw [run'.adds.old, handed]
      exact List.drop_eq_nil_of_le length_le
    · rw [places]
      exact List.take_prefix _ _
    · have lengths : final'.addresses.length = final.addresses.length := by
        rw [addresses', addresses, List.length_map, List.length_map, unchanged]
      have levels := levels_eq more run.ordered run'.ordered unchanged
      have firsts : final'.addresses.map Prod.fst = final.addresses.map Prod.fst := by
        rw [places, List.take_of_length_le (by rw [List.length_map, lengths])]
      have seconds : final'.addresses.map Prod.snd = final.addresses.map Prod.snd := by
        rw [addresses', addresses, List.map_map, List.map_map]
        exact levels
      rw [List.zip_of_prod firsts seconds]
      exact (List.zip_of_prod rfl rfl).symm

/-- In a map with one item every block is described once. -/
theorem describedOnce_of_single
    {items : ItemMap} {key : BtrfsKey} (single : items.keys = [key]) (address : Nat) :
    DescribedOnce items address := by
  intro left leftMember right rightMember _ _
  rw [single] at leftMember rightMember
  rw [List.mem_singleton.mp leftMember, List.mem_singleton.mp rightMember]

/-- The extent tree with a first block, built again over the item of that block. -/
theorem createTrees_grown_single_block :
    let start : TreeState :=
      { allocator :=
          { chunks :=
              [{ offset := 0x200000, length := 0x8000, diskStart := 0x100000
                 type := blockGroupMetadata, spaceList := [⟨0x200000, 0x8000⟩] }]
            spaceList := [] } }
    ∃ final again : TreeState,
      createTrees extentTreeObjectid SortedMap.empty 1 start = some (.ok final) ∧
        createTrees extentTreeObjectid SortedMap.empty 2
            { final with trees := [], addresses := [], oldAddresses := final.addresses } =
          some (.ok again) ∧
        countAt 0 final.trees ≤ countAt 0 again.trees ∧
        again.oldAddresses = [] ∧ again.addresses = final.addresses := by
  intro start
  have rebuilt :
      ∀ final again key,
        createTrees extentTreeObjectid SortedMap.empty 1 start = some (.ok final) →
          createTrees extentTreeObjectid SortedMap.empty 2
              { final with trees := [], addresses := [], oldAddresses := final.addresses } =
            some (.ok again) →
            final.allocator.extentItems.keys = [key] →
              again.trees.length = final.trees.length →
                countAt 0 final.trees ≤ countAt 0 again.trees ∧
                  again.oldAddresses = [] ∧ again.addresses = final.addresses := by
    intro final again key built builtAgain single unchanged
    have grown :=
      (createTrees_grown built ⟨rfl, rfl, by rintro address left ⟨⟩⟩).2 builtAgain
        ⟨rfl, rfl, describedOnce_of_single single⟩ (describedOnce_of_single single)
        (fun entry member => ⟨entry, member, rfl, rfl⟩) rfl
    exact ⟨grown.1 0, grown.2.1, grown.2.2.2 unchanged⟩
  exact ⟨_, _, rfl, rfl, rebuilt _ _ _ rfl rfl rfl rfl⟩

end Ntfs2Btrfs
