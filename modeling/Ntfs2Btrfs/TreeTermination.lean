import Mathlib.Algebra.Order.BigOperators.Group.Finset
import Mathlib.Order.Interval.Finset.Nat
import Ntfs2Btrfs.AllocatorRuns
import Ntfs2Btrfs.TreeContents
import Ntfs2Btrfs.WriteSafety

/-!
# Building a tree ends

Every block that is allocated takes a tree block's worth of bytes from the free
space.  In the extent tree it adds one item to the map that is being walked, so the
items that are left to walk and the blocks that are left to allocate together get
fewer with every turn of the leaf loop; recycling a block moves no item from in front
of the loop to behind it.  The levels above get shorter each.
-/

namespace Ntfs2Btrfs

open Extents
open SortedMap

/-! ## Free blocks -/

/-- All chunks and all free space are between two disk addresses. -/
structure Allocator.Inside (state : Allocator) (low high : Nat) : Prop where
  chunks : ∀ chunk ∈ state.chunks,
    low ≤ chunk.diskStart ∧ chunk.diskStart + chunk.length ≤ high
  spaces : ∀ space ∈ state.spaceList, low ≤ space.offset ∧ space.stop ≤ high

open Classical in
/-- The number of free bytes below a limit. -/
noncomputable def freeBytes (limit : Nat) (state : Allocator) : Nat :=
  ((Finset.range limit).filter state.Free).card

/-- How many blocks the free bytes would make at most. -/
noncomputable def freeBlocks (limit : Nat) (state : Allocator) : Nat :=
  freeBytes limit state / treeSize

theorem freeBlocks_le (limit : Nat) (state : Allocator) :
    freeBlocks limit state ≤ limit / treeSize := by
  classical
  refine Nat.div_le_div_right ?_
  have inside := Finset.card_filter_le (Finset.range limit) state.Free
  rw [Finset.card_range] at inside
  rw [freeBytes]
  convert inside

theorem Allocator.Inside.lt_of_free
    {state : Allocator} {low high : Nat} (inside : state.Inside low high)
    (wellFormed : state.WellFormed) {address : Nat} (free : state.Free address) :
    address < high := by
  rcases free with ⟨chunk, member, free⟩ | ⟨space, member, -, upper⟩
  · have inChunk := (wellFormed.chunks chunk member).diskRange_of_free free
    have ends := (inside.chunks chunk member).2
    have upper : address < chunk.diskStart + chunk.length := inChunk.2
    omega
  · have ends := (inside.spaces space member).2
    omega

/-- Addresses that are served are virtual ones. -/
theorem Served.virtual_le
    {state next : Allocator} {type length address : Nat}
    (served : Served state next type length address) (wellFormed : next.WellFormed) :
    chunkVirtOffset ≤ address := by
  obtain ⟨chunk, member, -, lower, -⟩ := served.inChunk
  have placed := (wellFormed.chunks chunk member).placed
  omega

/-- A block that was served took its bytes from the free space. -/
theorem Served.freeBytes_le
    {state next : Allocator} {type address limit : Nat}
    (served : Served state next type treeSize address) (advances : Advances state next type)
    (inLimit : state.Inside 0 limit) (wellFormed : state.WellFormed) :
    freeBytes limit next + treeSize ≤ freeBytes limit state := by
  classical
  have virtual := served.virtual_le advances.wellFormed
  have inside : ∀ point ∈ Finset.Ico (address - chunkVirtOffset)
      (address - chunkVirtOffset + treeSize), InRange address treeSize point := by
    intro point member
    obtain ⟨lower, upper⟩ := Finset.mem_Ico.mp member
    exact ⟨by omega, by omega⟩
  have disjoint : Disjoint ((Finset.range limit).filter next.Free)
      (Finset.Ico (address - chunkVirtOffset) (address - chunkVirtOffset + treeSize)) := by
    refine Finset.disjoint_left.mpr fun point free member => ?_
    exact served.taken point (inside point member) (Finset.mem_filter.mp free).2
  have subset : (Finset.range limit).filter next.Free ∪
      Finset.Ico (address - chunkVirtOffset) (address - chunkVirtOffset + treeSize) ⊆
        (Finset.range limit).filter state.Free := by
    intro point member
    rcases Finset.mem_union.mp member with left | taken
    · obtain ⟨small, free⟩ := Finset.mem_filter.mp left
      exact Finset.mem_filter.mpr ⟨small, advances.free point free⟩
    · have free := served.wasFree point (inside point taken)
      exact Finset.mem_filter.mpr
        ⟨Finset.mem_range.mpr (inLimit.lt_of_free wellFormed free), free⟩
  have counted := Finset.card_le_card subset
  rw [Finset.card_union_of_disjoint disjoint, Nat.card_Ico, Nat.add_sub_cancel_left] at counted
  rw [freeBytes, freeBytes]
  convert counted

/-- Allocating keeps everything between the two addresses. -/
theorem Allocator.Inside.allocateFrom
    {state : Allocator} {low high : Nat} (inside : state.Inside low high)
    (type chunkSize length : Nat) (usedOld : Chunk → Nat) (usedNew : Nat)
    (noAddress : ConvertError) :
    (Ntfs2Btrfs.allocateFrom type chunkSize length usedOld usedNew noAddress state).2.Inside
      low high := by
  have carved {space : Space} (member : space ∈ state.spaceList)
      (enough : chunkSize ≤ space.length) :
      (carve state space chunkSize type).Inside low high := by
    obtain ⟨starts, ends⟩ := inside.spaces space member
    rw [Extent.stop] at ends
    refine ⟨fun chunk inChunks => ?_, fun left inSpaces => ?_⟩
    · rcases List.mem_append.mp inChunks with old | new
      · exact inside.chunks chunk old
      · rw [List.mem_singleton.mp new, freshChunk_diskStart, freshChunk_length]
        omega
    · obtain ⟨whole, wholeMember, lower, upper⟩ := within_spaceListRemove _ _ _ left inSpaces
      obtain ⟨starts, ends⟩ := inside.spaces whole wholeMember
      exact ⟨starts.trans lower, upper.trans ends⟩
  rcases allocateFrom_cases type chunkSize length usedOld usedNew noAddress state with
    ⟨before, chunk, after, spaces, address, shape, -, -, equal⟩ | equal |
      ⟨space, member, enough, equal | ⟨spaces, address, -, equal⟩⟩
  · rw [equal]
    refine ⟨fun other inChunks => ?_, inside.spaces⟩
    have same : ∃ old ∈ state.chunks, other.diskStart = old.diskStart ∧
        other.length = old.length := by
      rw [shape]
      rcases List.mem_append.mp inChunks with front | back
      · exact ⟨other, List.mem_append_left _ front, rfl, rfl⟩
      · rcases List.mem_cons.mp back with rfl | later
        · exact ⟨chunk, List.mem_append_right _ List.mem_cons_self, rfl, rfl⟩
        · exact ⟨other, List.mem_append_right _ (List.mem_cons_of_mem _ later), rfl, rfl⟩
    obtain ⟨old, oldMember, start, size⟩ := same
    rw [start, size]
    exact inside.chunks old oldMember
  · rw [equal]
    exact ⟨inside.chunks, inside.spaces⟩
  · rw [equal]
    exact carved member enough
  · rw [equal]
    have fresh := carved member enough
    refine ⟨fun other inChunks => ?_, fresh.spaces⟩
    rcases List.mem_append.mp inChunks with old | new
    · exact fresh.chunks other (List.mem_append_left _ old)
    · rw [List.mem_singleton.mp new]
      exact fresh.chunks (freshChunk space.offset chunkSize type)
        (List.mem_append_right _ (List.mem_singleton_self _))

theorem Allocator.Inside.allocateMetadata
    {state : Allocator} {low high : Nat} (inside : state.Inside low high) (root level : Nat) :
    (Ntfs2Btrfs.allocateMetadata root level state).2.Inside low high := by
  have searched := inside.allocateFrom (metadataType root) (metadataChunkSize root) treeSize
    (fun chunk => (chunk.used + treeSize) % wordModulus) treeSize .noMetadataAddress
  rw [Ntfs2Btrfs.allocateMetadata]
  split
  · next failure next search =>
    rw [search] at searched
    exact searched
  · next address next search =>
    rw [search] at searched
    split
    · exact searched
    · exact ⟨searched.chunks, searched.spaces⟩

/-! ## What a flush takes -/

/-- A flush recycles the first old address, or allocates a block when there is none. -/
theorem flushTree_cases
    {id level : Nat} {body : BlockBody} {state next : TreeState}
    (flushed : flushTree id level body state = .ok next) :
    ∃ address, next.trees = state.trees ++ [⟨address, level, body⟩] ∧
      next.addresses = state.addresses ++ [(address, level)] ∧
      ((∃ oldLevel, state.oldAddresses = (address, oldLevel) :: next.oldAddresses ∧
          next.allocator =
            { state.allocator with
              extentItems := recycle address oldLevel level state.allocator.extentItems } ∧
          next.allocationsDone = state.allocationsDone) ∨
        state.oldAddresses = [] ∧ next.oldAddresses = [] ∧
          allocateMetadata id level state.allocator = (.ok address, next.allocator) ∧
          next.allocationsDone = true) := by
  unfold flushTree getAddress at flushed
  cases old : state.oldAddresses with
  | cons entry rest =>
    obtain ⟨address, oldLevel⟩ := entry
    rw [old] at flushed
    cases flushed
    exact ⟨address, rfl, rfl, Or.inl ⟨oldLevel, rfl, rfl, rfl⟩⟩
  | nil =>
    rw [old] at flushed
    rcases allocated : allocateMetadata id level state.allocator with ⟨_ | address, allocator⟩
    · simp only [allocated] at flushed
      cases flushed
    · simp only [allocated] at flushed
      cases flushed
      exact ⟨address, rfl, rfl, Or.inr ⟨rfl, rfl, rfl, rfl⟩⟩

/-- What is known about the allocator of a pass. -/
structure Bounded (limit : Nat) (state : Allocator) : Prop where
  wellFormed : state.WellFormed
  inside : state.Inside 0 limit

theorem Bounded.with_items
    {limit : Nat} {state : Allocator} (bounded : Bounded limit state) (items : ItemMap) :
    Bounded limit { state with extentItems := items } :=
  ⟨⟨bounded.wellFormed.chunks, bounded.wellFormed.apart, bounded.wellFormed.spaceTidy,
    bounded.wellFormed.spaceAligned, bounded.wellFormed.spaceApart⟩,
    ⟨bounded.inside.chunks, bounded.inside.spaces⟩⟩

/-- An allocated block leaves one free block less, or even fewer. -/
theorem Bounded.allocateMetadata
    {limit root level address : Nat} {state next : Allocator} (bounded : Bounded limit state)
    (allocated : Ntfs2Btrfs.allocateMetadata root level state = (.ok address, next)) :
    Bounded limit next ∧ freeBlocks limit next + 1 ≤ freeBlocks limit state := by
  obtain ⟨advances, served⟩ := allocateMetadata_spec bounded.wellFormed root level
  have inside := bounded.inside.allocateMetadata root level
  rw [allocated] at advances served inside
  have taken := (served address rfl).freeBytes_le advances bounded.inside bounded.wellFormed
  refine ⟨⟨advances.wellFormed, inside⟩, ?_⟩
  have size : 0 < treeSize := by decide
  rw [freeBlocks, freeBlocks, ← Nat.add_div_right _ size]
  exact Nat.div_le_div_right taken

/-- A flush leaves the allocator as it is, or takes a block out of the free space. -/
theorem flushTree_progress
    {id level limit : Nat} {body : BlockBody} {state next : TreeState}
    (flushed : flushTree id level body state = .ok next)
    (bounded : Bounded limit state.allocator) :
    Bounded limit next.allocator ∧
      (freeBlocks limit next.allocator = freeBlocks limit state.allocator ∧
          next.allocator.chunksChanged = state.allocator.chunksChanged ∧
          next.allocationsDone = state.allocationsDone ∨
        freeBlocks limit next.allocator + 1 ≤ freeBlocks limit state.allocator) := by
  obtain ⟨address, -, -, ⟨oldLevel, -, allocator, done⟩ | ⟨-, -, allocated, -⟩⟩ :=
    flushTree_cases flushed
  · rw [allocator]
    exact ⟨bounded.with_items _, Or.inl ⟨rfl, rfl, done⟩⟩
  · obtain ⟨kept, taken⟩ := bounded.allocateMetadata allocated
    exact ⟨kept, Or.inr taken⟩

/-! ## The leaf loop -/

theorem metadataKey_zero_le (address level : Nat) :
    metadataKey address 0 ≤ metadataKey address level := by
  refine not_lt.mp fun less => ?_
  rcases (BtrfsKey.lt_iff _ _).mp less with object | ⟨-, type | ⟨-, offset⟩⟩
  · exact lt_irrefl _ object
  · exact lt_irrefl _ type
  · exact Nat.not_lt_zero _ offset

/-- Moving an item to level 0 leaves no more items behind a position. -/
theorem length_after_recycle_le
    (address oldLevel : Nat) (items : ItemMap) (position : Option BtrfsKey) :
    ((recycle address oldLevel 0 items).after position).length ≤
      (items.after position).length := by
  rw [recycle]
  split_ifs with changes
  · cases found : items.find? (metadataKey address oldLevel) with
    | none => exact le_refl _
    | some data =>
      have member := find?_eq_some_iff.mp found
      have erased : ((items.erase (metadataKey address oldLevel)).after position) =
          (items.after position).filter fun entry => entry.1 ≠ metadataKey address oldLevel := by
        rw [after, after, erase, List.filter_filter, List.filter_filter]
        refine List.filter_congr fun entry _ => ?_
        rw [Bool.and_comm]
        congr
      have fewer : ((items.erase (metadataKey address oldLevel)).after position).length ≤
          (items.after position).length := by
        rw [erased]
        exact List.length_filter_le _ _
      by_cases fresh : metadataKey address 0 ∈ (items.erase (metadataKey address oldLevel)).keys
      · have same : (items.erase (metadataKey address oldLevel)).emplace
            (metadataKey address 0) data = items.erase (metadataKey address oldLevel) :=
          SortedMap.ext (insertEntry_eq_of_mem (SortedMap.sorted _) fresh)
        dsimp only
        rw [same]
        exact fewer
      · change (((items.erase (metadataKey address oldLevel)).emplace
          (metadataKey address 0) data).after position).length ≤ _
        rw [after_emplace data fresh position]
        split_ifs with ahead
        · -- the old key is not before the new one, so the item stood behind the position as well
          have behind : Before position (metadataKey address oldLevel) := by
            rcases (metadataKey_zero_le address oldLevel).lt_or_eq with less | equal
            · exact ahead.of_lt less
            · exact equal ▸ ahead
          have less : ((items.erase (metadataKey address oldLevel)).after position).length <
              (items.after position).length := by
            rw [erased]
            exact List.length_filter_lt_length_iff_exists.mpr
              ⟨_, mem_after.mpr ⟨member, behind⟩, by simp⟩
          exact (length_insertEntry_le _ _ _).trans less
        · exact fewer
  · exact le_refl _

/-- The items that the loop has not reached and the blocks that are free. -/
noncomputable def leavesLeft
    (limit id : Nat) (own : ItemMap) (position : Option BtrfsKey) (state : TreeState) : Nat :=
  ((treeItems id own state).after position).length + freeBlocks limit state.allocator

/-- A leaf that is flushed costs a free block if it adds an item. -/
theorem leavesLeft_flush_le
    {limit id : Nat} {own : ItemMap} {body : BlockBody} {state next : TreeState}
    (flushed : flushTree id 0 body state = .ok next) (bounded : Bounded limit state.allocator)
    (position : Option BtrfsKey) :
    leavesLeft limit id own position next ≤ leavesLeft limit id own position state := by
  rw [leavesLeft, leavesLeft, treeItems, treeItems]
  obtain ⟨address, -, -, ⟨oldLevel, -, allocator, -⟩ | ⟨-, -, allocated, -⟩⟩ :=
    flushTree_cases flushed
  · have free : freeBlocks limit next.allocator = freeBlocks limit state.allocator := by
      rw [allocator]
      rfl
    rw [free, allocator]
    split_ifs
    · exact Nat.add_le_add_right (length_after_recycle_le _ _ _ _) _
    · exact le_refl _
  · have taken := (bounded.allocateMetadata allocated).2
    obtain ⟨-, -, fresh, items⟩ := allocateMetadata_ok allocated
    split_ifs
    · rw [items, after_emplace _ fresh]
      split_ifs
      · have one := length_insertEntry_le (metadataKey address 0) (metadataItem id)
          (state.allocator.extentItems.after position)
        omega
      · omega
    · omega

/-- With as many turns as items and free blocks the leaf loop comes to an end. -/
theorem leafLoop_returns
    {limit id turns : Nat} {own : ItemMap} {position : Option BtrfsKey} {leaf : OpenLeaf}
    {state : TreeState} (bounded : Bounded limit state.allocator)
    (enough : leavesLeft limit id own position state < turns) :
    ∃ outcome, leafLoop id own turns position leaf state = some outcome := by
  induction turns generalizing position leaf state with
  | zero => exact absurd enough (Nat.not_lt_zero _)
  | succ turns ih =>
    unfold leafLoop
    cases found : (treeItems id own state).next? position with
    | none => exact ⟨_, rfl⟩
    | some entry =>
      obtain ⟨key, data⟩ := entry
      have later : leavesLeft limit id own (some key) state + 1 =
          leavesLeft limit id own position state := by
        rw [leavesLeft, leavesLeft, after_eq_cons_of_next? found, List.length_cons]
        exact Nat.add_right_comm _ _ _
      dsimp only
      by_cases full : itemCost data > leaf.spaceLeft
      · rw [if_pos full]
        cases flushed : flushTree id 0 (.leaf leaf.items) state with
        | error failure => exact ⟨_, rfl⟩
        | ok next =>
          have less := @leavesLeft_flush_le _ _ own _ _ _ flushed bounded (some key)
          dsimp only
          split_ifs
          · exact ⟨_, rfl⟩
          · exact ⟨_, rfl⟩
          · exact ih (flushTree_progress flushed bounded).1 (by omega)
      · rw [if_neg full]
        split_ifs
        · exact ⟨_, rfl⟩
        · exact ih bounded (by omega)

/-- More turns do not change what a loop that ended gave. -/
theorem leafLoop_more
    {id turns : Nat} {own : ItemMap} {position : Option BtrfsKey} {leaf : OpenLeaf}
    {state : TreeState} {outcome : Except TreeError (OpenLeaf × TreeState)}
    (ended : leafLoop id own turns position leaf state = some outcome) (more : Nat) :
    leafLoop id own (turns + more) position leaf state = some outcome := by
  induction turns generalizing position leaf state with
  | zero => cases ended
  | succ turns ih =>
    rw [Nat.succ_add]
    unfold leafLoop at ended ⊢
    cases found : (treeItems id own state).next? position with
    | none =>
      rw [found] at ended
      exact ended
    | some entry =>
      simp only [found] at ended ⊢
      by_cases full : itemCost entry.2 > leaf.spaceLeft
      · rw [if_pos full] at ended ⊢
        cases flushed : flushTree id 0 (.leaf leaf.items) state with
        | error failure =>
          rw [flushed] at ended
          exact ended
        | ok next =>
          simp only [flushed] at ended ⊢
          split_ifs at ended ⊢
          · exact ended
          · exact ended
          · exact ih ended
      · rw [if_neg full] at ended ⊢
        split_ifs at ended ⊢
        · exact ended
        · exact ih ended

/-! ## The loop over the levels -/

/-- The loop over the levels ends: every level is shorter than the one below it. -/
theorem levelLoop_returns
    {id turns : Nat} {state : TreeState} {earlier top : List TreeBlock}
    (stack : Stack state earlier top) (several : 1 < top.length) (enough : top.length ≤ turns) :
    ∃ outcome, levelLoop id turns state = some outcome := by
  induction turns generalizing state earlier top with
  | zero => omega
  | succ turns ih =>
    unfold levelLoop
    dsimp only
    cases built : buildLevel id (state.level + 1) { state with level := state.level + 1 } with
    | error failure => exact ⟨_, rfl⟩
    | ok outcome =>
      obtain ⟨count, next⟩ := outcome
      obtain ⟨blocks, groups, -, upper, length, positive, halved⟩ :=
        stack.build (List.ne_nil_of_length_pos (by omega)) built
      dsimp only
      split_ifs with single
      · exact ⟨_, rfl⟩
      · exact ih upper (by omega) (by omega)

theorem levelLoop_more
    {id turns : Nat} {state : TreeState} {outcome : Except ConvertError TreeState}
    (ended : levelLoop id turns state = some outcome) (more : Nat) :
    levelLoop id (turns + more) state = some outcome := by
  induction turns generalizing state with
  | zero => cases ended
  | succ turns ih =>
    rw [Nat.succ_add]
    unfold levelLoop at ended ⊢
    dsimp only at ended ⊢
    cases built : buildLevel id (state.level + 1) { state with level := state.level + 1 } with
    | error failure =>
      rw [built] at ended
      exact ended
    | ok found =>
      simp only [built] at ended ⊢
      split_ifs at ended ⊢
      · exact ended
      · exact ih ended

/-! ## Whole passes -/

theorem createTrees_more
    {id turns : Nat} {own : ItemMap} {start : TreeState} {outcome : Except TreeError TreeState}
    (built : createTrees id own turns start = some outcome) (more : Nat) :
    createTrees id own (turns + more) start = some outcome := by
  unfold createTrees at built ⊢
  rcases looped : leafLoop id own turns none {} start with _ | (failure | ⟨leaf, filled⟩)
  · rw [looped] at built
    cases built
  · rw [looped] at built
    rw [leafLoop_more looped more]
    exact built
  · rw [looped] at built
    rw [leafLoop_more looped more]
    dsimp only at built ⊢
    split_ifs at built ⊢
    · cases flushed : flushTree id 0 (.leaf leaf.items) filled with
      | error failure =>
        rw [flushed] at built
        exact built
      | ok leaves =>
        simp only [flushed] at built ⊢
        split_ifs at built ⊢
        · exact built
        · obtain ⟨levels, ended, equal⟩ := Option.map_eq_some_iff.mp built
          rw [levelLoop_more ended more, Option.map_some, equal]
    · dsimp only at built ⊢
      split_ifs at built ⊢
      · exact built
      · obtain ⟨levels, ended, equal⟩ := Option.map_eq_some_iff.mp built
        rw [levelLoop_more ended more, Option.map_some, equal]

/-- A tree is built in finitely many turns, whether the building succeeds or fails. -/
theorem createTrees_returns
    {limit id : Nat} (own : ItemMap) {start : TreeState} (bounded : Bounded limit start.allocator)
    (cleared : start.trees = []) :
    ∃ turns outcome, createTrees id own turns start = some outcome := by
  obtain ⟨turns, outcome, looped⟩ : ∃ turns outcome,
      leafLoop id own turns none {} start = some outcome :=
    ⟨_, leafLoop_returns bounded (Nat.lt_succ_self _)⟩
  rcases outcome with failure | ⟨leaf, filled⟩
  · refine ⟨turns, .error failure, ?_⟩
    rw [createTrees, looped]
  · cases flushed : flushTree id 0 (.leaf leaf.items) filled with
    | error failure =>
      refine ⟨turns, .error (.convert failure), ?_⟩
      simp only [createTrees, looped, if_pos (leafLoop_flushes looped), flushed]
    | ok leaves =>
      by_cases single : leaves.trees.length = 1
      · refine ⟨turns, .ok (TreeState.close { leaves with level := 0 }), ?_⟩
        simp only [createTrees, looped, if_pos (leafLoop_flushes looped), flushed, if_pos single]
      · obtain ⟨blocks, before, level⟩ := leafLoop_flushed looped
        obtain ⟨address, trees, -⟩ := Flushed.of_flush flushed
        have stack : Stack { leaves with level := 0 } [] leaves.trees := by
          refine ⟨rfl, fun block member => absurd member List.not_mem_nil, fun block member => ?_⟩
          rw [trees, before.trees, cleared, List.nil_append] at member
          rcases List.mem_append.mp member with earlier | last
          · exact level block earlier
          · rw [List.mem_singleton.mp last]
        have some_ : leaves.trees ≠ [] := by
          rw [trees]
          exact List.append_ne_nil_of_right_ne_nil _ (List.cons_ne_nil _ _)
        have several : 1 < leaves.trees.length := by
          have positive := List.length_pos_of_ne_nil some_
          omega
        obtain ⟨levels, ended⟩ := @levelLoop_returns id _ _ _ _ stack several (le_refl _)
        have lower := leafLoop_more looped leaves.trees.length
        have upper := levelLoop_more ended turns
        rw [Nat.add_comm] at upper
        refine ⟨turns + leaves.trees.length, ?_⟩
        simp only [createTrees, lower, if_pos (leafLoop_flushes looped), flushed, if_neg single,
          upper, Option.map_some]
        exact ⟨_, rfl⟩

end Ntfs2Btrfs
