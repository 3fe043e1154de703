import Ntfs2Btrfs.TreeScan

/-!
# The place of the leaf loop when blocks are recycled

Closing a leaf of the extent tree may recycle a block of a former pass.  If
that block was an internal node its item moves to level 0, which erases the map
node that held it.  The loop is at an item of the same map then, the first one
of the next leaf; when that is the item that moves, the loop goes on to use an
erased node.

Until all old addresses are used the map changes by such moves only, so the
item that opens a leaf is determined by the sizes of the items before it.
-/

namespace Ntfs2Btrfs

open ByteStore
open Packing
open SortedMap

/-! ## A map after some moves -/

/-- The key of the item that describes a block of a former pass. -/
def oldKey (entry : Nat × Nat) : BtrfsKey :=
  metadataKey entry.1 entry.2

/-- An item after the blocks of a list were recycled as leaves. -/
def moved (done : List (Nat × Nat)) (entry : BtrfsKey × Bytes) : BtrfsKey × Bytes :=
  if entry.1 ∈ done.map oldKey then (entry.1.withoutLevel, entry.2) else entry

theorem moved_nil (entry : BtrfsKey × Bytes) : moved [] entry = entry :=
  if_neg List.not_mem_nil

theorem moved_snd (done : List (Nat × Nat)) (entry : BtrfsKey × Bytes) :
    (moved done entry).2 = entry.2 := by
  rw [moved]
  split_ifs <;> rfl

/-- Recycling one more block moves one more item. -/
theorem rename_moved (done : List (Nat × Nat)) (address level : Nat) (entry : BtrfsKey × Bytes) :
    rename (metadataKey address level) (metadataKey address 0) (moved done entry) =
      moved (done ++ [(address, level)]) entry := by
  have members :
      entry.1 ∈ (done ++ [(address, level)]).map oldKey ↔
        entry.1 ∈ done.map oldKey ∨ entry.1 = metadataKey address level := by
    rw [List.map_append, List.mem_append, List.map_singleton, List.mem_singleton]
    rfl
  by_cases before : entry.1 ∈ done.map oldKey
  · rw [moved, moved, if_pos before, if_pos (members.mpr (Or.inl before)), rename]
    split_ifs with same
    · rw [← BtrfsKey.withoutLevel_withoutLevel,
        show entry.1.withoutLevel = metadataKey address level from same,
        BtrfsKey.withoutLevel_metadataKey]
    · rfl
  · by_cases here : entry.1 = metadataKey address level
    · rw [moved, moved, if_neg before, if_pos (members.mpr (Or.inr here)), rename, if_pos here,
        here, BtrfsKey.withoutLevel_metadataKey]
    · rw [moved, moved, if_neg before, rename_of_ne here,
        if_neg fun member => (members.mp member).elim before here]

/-- An item that was not moved to level 0 is where it was. -/
theorem moved_eq_iff (done : List (Nat × Nat)) (entry : BtrfsKey × Bytes) {address level : Nat}
    (apart : metadataKey address level ≠ metadataKey address 0) :
    (moved done entry).1 = metadataKey address level ↔
      entry.1 = metadataKey address level ∧ entry.1 ∉ done.map oldKey := by
  by_cases before : entry.1 ∈ done.map oldKey
  · rw [moved, if_pos before]
    refine iff_of_false (fun same => apart ?_) fun both => both.2 before
    have level_zero := congrArg BtrfsKey.withoutLevel same
    rw [BtrfsKey.withoutLevel_withoutLevel, BtrfsKey.withoutLevel_metadataKey] at level_zero
    exact same.symm.trans level_zero
  · rw [moved, if_neg before]
    exact ⟨fun same => ⟨same, before⟩, fun both => both.1⟩

/-! ## The loop over such a map -/

/-- Closing a leaf erases the key of an item when its block is the one that is recycled. -/
theorem not_mem_keys_recycle_iff
    {items : ItemMap} {address level : Nat} (once : DescribedOnce items address)
    {key : BtrfsKey} (present : key ∈ items.keys) :
    key ∉ (recycle address level 0 items).keys ↔
      key = metadataKey address level ∧ metadataKey address level ≠ metadataKey address 0 := by
  rcases mem_keys_iff.mp present with ⟨data, member⟩
  constructor
  · intro absent
    have renamed :
        (rename (metadataKey address level) (metadataKey address 0) (key, data)).1 ∈
          (recycle address level 0 items).keys := by
      rw [keys, entries_recycle once]
      exact List.mem_map_of_mem (List.mem_map_of_mem member)
    by_cases here : key = metadataKey address level
    · refine ⟨here, fun same => absent ?_⟩
      rwa [same, rename_self] at renamed
    · rw [rename_of_ne here] at renamed
      exact absurd renamed absent
  · rintro ⟨rfl, apart⟩ found
    rcases mem_keys_recycle once level 0 found with ⟨entry, _, same⟩
    by_cases here : entry.1 = metadataKey address level
    · rw [rename, if_pos here] at same
      exact apart same.symm
    · exact here (rename_of_ne here ▸ same)

/-- The old addresses left, and what is left of the map behind a position. -/
structure LoopStage (old : List (Nat × Nat)) (count : Nat) (position : Option BtrfsKey)
    (rest : List (BtrfsKey × Bytes)) (state : TreeState) : Prop where
  addresses : state.oldAddresses = old.drop count
  once : ∀ entry ∈ old, DescribedOnce state.allocator.extentItems entry.1
  left : state.allocator.extentItems.after position = rest.map (moved (old.take count))

/-- The item that opens a leaf belongs to the block that is recycled for the leaf before. -/
def Struck (old : List (Nat × Nat)) (fill : Fill) (rest : List (BtrfsKey × Bytes)) : Prop :=
  ∃ passed address level data later,
    rest = passed ++ (metadataKey address level, data) :: later ∧
      (∀ entry ∈ passed, itemCost entry.2 ≤ blockSpace) ∧
      let stage := pack blockSpace fill (passed.map fun entry => itemCost entry.2)
      ¬ stage.Fits blockSpace (itemCost data) ∧
        old[stage.closed]? = some (address, level) ∧
        metadataKey address level ≠ metadataKey address 0 ∧
        metadataKey address level ∉ (old.take stage.closed).map oldKey

theorem not_struck_nil (old : List (Nat × Nat)) (fill : Fill) : ¬ Struck old fill [] := by
  rintro ⟨passed, address, level, data, later, shape, _⟩
  exact List.append_ne_nil_of_right_ne_nil passed (List.cons_ne_nil _ later) shape.symm

/-- Nothing is struck when no old address is left. -/
theorem not_struck_of_exhausted
    {old : List (Nat × Nat)} {fill : Fill} {rest : List (BtrfsKey × Bytes)}
    (beyond : old.length ≤ fill.closed) :
    ¬ Struck old fill rest := by
  rintro ⟨passed, address, level, data, later, _, _, _, at_stage, _⟩
  have reached := Fill.closed_le
    (le_pack blockSpace fill (passed.map fun entry => itemCost entry.2))
  rw [List.getElem?_eq_none (beyond.trans reached)] at at_stage
  cases at_stage

/-- Where an item fits the question is passed on to the items behind it. -/
theorem struck_cons_of_fits
    {old : List (Nat × Nat)} {fill : Fill} {entry : BtrfsKey × Bytes}
    {rest : List (BtrfsKey × Bytes)}
    (fits : fill.Fits blockSpace (itemCost entry.2)) :
    Struck old fill (entry :: rest) ↔
      Struck old ⟨fill.closed, fill.used + itemCost entry.2⟩ rest := by
  have small : itemCost entry.2 ≤ blockSpace := (Nat.le_add_left _ _).trans fits
  constructor
  · rintro ⟨passed, address, level, data, later, shape, fit, full, struck⟩
    cases passed with
    | nil =>
        rcases List.cons.inj shape with ⟨rfl, rfl⟩
        exact absurd fits full
    | cons head passed =>
        rcases List.cons.inj shape with ⟨rfl, rfl⟩
        rw [List.map_cons, pack_cons, Fill.put_of_fits fits] at full struck
        exact ⟨passed, address, level, data, later, rfl,
          fun other member => fit other (List.mem_cons_of_mem entry member), full, struck⟩
  · rintro ⟨passed, address, level, data, later, rfl, fit, full, struck⟩
    rw [← Fill.put_of_fits fits, ← pack_cons] at full struck
    exact ⟨entry :: passed, address, level, data, later, rfl,
      List.forall_mem_cons.mpr ⟨small, fit⟩, full, struck⟩

/-- Where an item opens a leaf it is struck itself, or the question is passed on. -/
theorem struck_cons_of_full
    {old : List (Nat × Nat)} {fill : Fill} {entry : BtrfsKey × Bytes}
    {rest : List (BtrfsKey × Bytes)}
    (full : ¬ fill.Fits blockSpace (itemCost entry.2)) :
    Struck old fill (entry :: rest) ↔
      (∃ address level, entry.1 = metadataKey address level ∧
          old[fill.closed]? = some (address, level) ∧
          metadataKey address level ≠ metadataKey address 0 ∧
          metadataKey address level ∉ (old.take fill.closed).map oldKey) ∨
        itemCost entry.2 ≤ blockSpace ∧
          Struck old ⟨fill.closed + 1, itemCost entry.2⟩ rest := by
  constructor
  · rintro ⟨passed, address, level, data, later, shape, fit, crowded, struck⟩
    cases passed with
    | nil =>
        rcases List.cons.inj shape with ⟨rfl, rfl⟩
        exact Or.inl ⟨address, level, rfl, struck⟩
    | cons head passed =>
        rcases List.cons.inj shape with ⟨rfl, rfl⟩
        rw [List.map_cons, pack_cons, Fill.put_of_not_fits full] at crowded struck
        exact Or.inr ⟨fit entry List.mem_cons_self, passed, address, level, data, later, rfl,
          fun other member => fit other (List.mem_cons_of_mem entry member), crowded, struck⟩
  · rintro (⟨address, level, same, struck⟩ | ⟨small, passed, address, level, data, later, rfl, fit,
      crowded, struck⟩)
    · refine ⟨[], address, level, entry.2, rest, ?_, by simp, full, struck⟩
      rw [← same]
      rfl
    · rw [← Fill.put_of_not_fits full, ← pack_cons] at crowded struck
      exact ⟨entry :: passed, address, level, data, later, rfl,
        List.forall_mem_cons.mpr ⟨small, fit⟩, crowded, struck⟩

/-! ## The loop over such a map -/

/-- Some run of the leaf loop of the extent tree uses an erased item. -/
def UsesErased (position : Option BtrfsKey) (leaf : OpenLeaf) (state : TreeState) : Prop :=
  ∃ own turns, leafLoop extentTreeObjectid own turns position leaf state =
    some (.error .erasedItem)

section Turns

variable {position : Option BtrfsKey} {leaf : OpenLeaf} {state : TreeState}

theorem not_usesErased_of_none
    (ended : state.allocator.extentItems.next? position = none) :
    ¬ UsesErased position leaf state := by
  rintro ⟨own, turns, erased⟩
  cases turns with
  | zero => cases erased
  | succ turns =>
      rw [leafLoop, treeItems, if_pos rfl, ended] at erased
      cases erased

theorem usesErased_of_fits {key : BtrfsKey} {data : Bytes}
    (found : state.allocator.extentItems.next? position = some (key, data))
    (room : itemCost data ≤ leaf.spaceLeft) (small : itemCost data ≤ blockSpace) :
    UsesErased position leaf state ↔ UsesErased (some key) (leaf.add key data) state := by
  have turn : ∀ own turns,
      leafLoop extentTreeObjectid own (turns + 1) position leaf state =
        leafLoop extentTreeObjectid own turns (some key) (leaf.add key data) state := by
    intro own turns
    have size : ¬ itemCost data + headerSize > treeSize := by
      rw [blockSpace] at small
      have header : headerSize ≤ treeSize := by decide
      omega
    rw [leafLoop, treeItems, if_pos rfl, found]
    simp only [if_neg (not_lt.mpr room), if_neg size]
  constructor
  · rintro ⟨own, turns, erased⟩
    cases turns with
    | zero => cases erased
    | succ turns => exact ⟨own, turns, turn own turns ▸ erased⟩
  · rintro ⟨own, turns, erased⟩
    exact ⟨own, turns + 1, (turn own turns).trans erased⟩

theorem usesErased_of_full {key : BtrfsKey} {data : Bytes} {next : TreeState}
    (found : state.allocator.extentItems.next? position = some (key, data))
    (full : leaf.spaceLeft < itemCost data)
    (flushed : flushTree extentTreeObjectid 0 (.leaf leaf.items) state = .ok next) :
    UsesErased position leaf state ↔
      key ∉ next.allocator.extentItems.keys ∨
        itemCost data ≤ blockSpace ∧
          UsesErased (some key) (OpenLeaf.add {} key data) next := by
  have turn : ∀ own turns,
      leafLoop extentTreeObjectid own (turns + 1) position leaf state =
        if next.allocator.extentItems.find? key = none then some (.error .erasedItem)
        else if itemCost data + headerSize > treeSize then some (.error .itemTooLarge)
        else leafLoop extentTreeObjectid own turns (some key) (OpenLeaf.add {} key data) next := by
    intro own turns
    rw [leafLoop, treeItems, if_pos rfl, found]
    simp only [if_pos (show itemCost data > leaf.spaceLeft from full), flushed]
    rfl
  have size : itemCost data + headerSize > treeSize ↔ ¬ itemCost data ≤ blockSpace := by
    have header : headerSize ≤ treeSize := by decide
    rw [blockSpace]
    omega
  rw [← find?_eq_none_iff]
  constructor
  · rintro ⟨own, turns, erased⟩
    cases turns with
    | zero => cases erased
    | succ turns =>
        rw [turn] at erased
        split_ifs at erased with gone large
        · exact Or.inl gone
        · cases erased
        · exact Or.inr ⟨not_not.mp fun big => large (size.mpr big), own, turns, erased⟩
  · rintro (gone | ⟨small, own, turns, erased⟩)
    · exact ⟨SortedMap.empty, 1, (turn _ 0).trans (if_pos gone)⟩
    · by_cases gone : next.allocator.extentItems.find? key = none
      · exact ⟨SortedMap.empty, 1, (turn _ 0).trans (if_pos gone)⟩
      · refine ⟨own, turns + 1, (turn own turns).trans ?_⟩
        rw [if_neg gone, if_neg fun big => size.mp big small]
        exact erased

end Turns

/-- Allocated blocks only add items, so nothing is erased when no address is left. -/
theorem not_usesErased_of_exhausted
    {position : Option BtrfsKey} {leaf : OpenLeaf} {state : TreeState}
    (exhausted : state.oldAddresses = []) :
    ¬ UsesErased position leaf state := by
  rintro ⟨own, turns, erased⟩
  induction turns generalizing position leaf state with
  | zero => cases erased
  | succ turns ih =>
      have uses : UsesErased position leaf state := ⟨own, turns + 1, erased⟩
      cases found : state.allocator.extentItems.next? position with
      | none => exact not_usesErased_of_none found uses
      | some entry =>
          rcases entry with ⟨key, data⟩
          rw [leafLoop, treeItems, if_pos rfl, found] at erased
          by_cases full : itemCost data > leaf.spaceLeft
          · simp only [if_pos full] at erased
            cases flushed : flushTree extentTreeObjectid 0 (.leaf leaf.items) state with
            | error error =>
                simp only [flushed] at erased
                cases erased
            | ok next =>
                rcases flushTree_ok flushed with ⟨address, _, _, _, source⟩
                cases source with
                | recycled oldLevel old space items =>
                    rw [exhausted] at old
                    cases old
                | allocated old left taken space fresh items =>
                    have kept : key ∈ next.allocator.extentItems.keys := by
                      rw [items]
                      exact mem_keys_iff.mpr ⟨data, mem_emplace_of_mem
                        (next?_eq_some_iff.mp found).1⟩
                    have present : ¬ (treeItems extentTreeObjectid own next).find? key = none :=
                      fun absent => find?_eq_none_iff.mp absent kept
                    simp only [flushed, if_neg present] at erased
                    split_ifs at erased
                    · cases erased
                    · exact ih left erased
          · simp only [if_neg full] at erased
            split_ifs at erased
            · cases erased
            · exact ih exhausted erased

/-- Recycling the next block for a leaf leaves a map with one more item moved. -/
theorem LoopStage.closes
    {old : List (Nat × Nat)} {count address level : Nat} {position : Option BtrfsKey}
    {entry : BtrfsKey × Bytes} {rest : List (BtrfsKey × Bytes)} {state next : TreeState}
    (stage : LoopStage old count position (entry :: rest) state)
    (at_count : old[count]? = some (address, level))
    (addresses : next.oldAddresses = old.drop (count + 1))
    (items : next.allocator.extentItems = recycle address level 0 state.allocator.extentItems)
    (kept : (moved (old.take count) entry).1 ∈ next.allocator.extentItems.keys) :
    LoopStage old (count + 1) (some (moved (old.take count) entry).1) rest next := by
  have member : (address, level) ∈ old := List.mem_of_getElem? at_count
  have once := stage.once _ member
  have left := stage.left
  rw [List.map_cons] at left
  have found : state.allocator.extentItems.next? position =
      some (moved (old.take count) entry) := by
    rw [next?_eq_head?, left]
    rfl
  have behind := after_eq_cons_of_next? found
  rw [left] at behind
  have present : (moved (old.take count) entry).1 ∈ state.allocator.extentItems.keys :=
    mem_keys_iff.mpr ⟨_, (next?_eq_some_iff.mp found).1⟩
  have taken : old.take (count + 1) = old.take count ++ [(address, level)] := by
    rw [List.take_add_one, at_count]
    rfl
  refine ⟨addresses, ?_, ?_⟩
  · intro other inside
    rw [items]
    exact once.recycled level 0 (stage.once other inside)
  · rw [items] at kept ⊢
    rw [after_recycle once level 0 present kept, ← (List.cons.inj behind).2, List.map_map, taken]
    exact List.map_congr_left fun other _ => rename_moved _ address level other

/-- The loop uses an erased item exactly when the item that opens a leaf is struck. -/
theorem usesErased_iff
    {old : List (Nat × Nat)} {rest : List (BtrfsKey × Bytes)} {fill : Fill}
    {position : Option BtrfsKey} {leaf : OpenLeaf} {state : TreeState}
    (stage : LoopStage old fill.closed position rest state)
    (room : leaf.spaceLeft + fill.used = blockSpace) :
    UsesErased position leaf state ↔ Struck old fill rest := by
  induction rest generalizing fill position leaf state with
  | nil =>
      have left := stage.left
      refine iff_of_false (not_usesErased_of_none ?_) (not_struck_nil old fill)
      rw [next?_eq_head?, left]
      rfl
  | cons entry rest ih =>
      obtain ⟨key, key_eq⟩ : ∃ key, (moved (old.take fill.closed) entry).1 = key := ⟨_, rfl⟩
      have moved_eq : moved (old.take fill.closed) entry = (key, entry.2) :=
        Prod.ext key_eq (moved_snd _ entry)
      have left := stage.left
      rw [List.map_cons, moved_eq] at left
      have found : state.allocator.extentItems.next? position = some (key, entry.2) := by
        rw [next?_eq_head?, left]
        rfl
      have behind := after_eq_cons_of_next? found
      rw [left] at behind
      have present : key ∈ state.allocator.extentItems.keys :=
        mem_keys_iff.mpr ⟨_, (next?_eq_some_iff.mp found).1⟩
      by_cases fits : fill.Fits blockSpace (itemCost entry.2)
      · rw [struck_cons_of_fits fits]
        rw [Fill.Fits] at fits
        rw [usesErased_of_fits found (by omega) (by omega)]
        refine ih ⟨stage.addresses, stage.once, (List.cons.inj behind).2.symm⟩ ?_
        simp only [OpenLeaf.add]
        omega
      · rw [struck_cons_of_full fits]
        rw [Fill.Fits] at fits
        cases at_count : old[fill.closed]? with
        | none =>
            have beyond : old.length ≤ fill.closed := List.getElem?_eq_none_iff.mp at_count
            have exhausted : state.oldAddresses = [] := by
              rw [stage.addresses, List.drop_eq_nil_of_le beyond]
            refine iff_of_false (not_usesErased_of_exhausted exhausted) ?_
            rintro (⟨address, level, _, absent, _⟩ | ⟨_, struck⟩)
            · cases absent
            · exact not_struck_of_exhausted (beyond.trans (Nat.le_succ _)) struck
        | some first =>
            rcases first with ⟨address, level⟩
            have member : (address, level) ∈ old := List.mem_of_getElem? at_count
            have once := stage.once _ member
            have dropped :
                state.oldAddresses = (address, level) :: old.drop (fill.closed + 1) := by
              rw [stage.addresses]
              exact List.drop_eq_getElem?_toList_append .. |>.trans (by rw [at_count]; rfl)
            obtain ⟨next, flushed, old_eq, items_eq⟩ :
                ∃ next, flushTree extentTreeObjectid 0 (.leaf leaf.items) state = .ok next ∧
                  next.oldAddresses = old.drop (fill.closed + 1) ∧
                  next.allocator.extentItems =
                    recycle address level 0 state.allocator.extentItems := by
              rw [flushTree, getAddress, dropped]
              exact ⟨_, rfl, rfl, rfl⟩
            have here :
                (key = metadataKey address level ∧
                    metadataKey address level ≠ metadataKey address 0) ↔
                  ∃ address' level', entry.1 = metadataKey address' level' ∧
                    some (address, level) = some (address', level') ∧
                    metadataKey address' level' ≠ metadataKey address' 0 ∧
                    metadataKey address' level' ∉ (old.take fill.closed).map oldKey := by
              constructor
              · rintro ⟨same, apart⟩
                rcases (moved_eq_iff _ entry apart).mp (key_eq.trans same) with ⟨equal, absent⟩
                exact ⟨address, level, equal, rfl, apart, equal ▸ absent⟩
              · rintro ⟨address', level', equal, same, apart, absent⟩
                cases same
                refine ⟨?_, apart⟩
                rw [← key_eq]
                exact (moved_eq_iff _ entry apart).mpr ⟨equal, equal ▸ absent⟩
            rw [usesErased_of_full found (by omega) flushed, items_eq,
              not_mem_keys_recycle_iff once present, ← here]
            by_cases hit : key = metadataKey address level ∧
                metadataKey address level ≠ metadataKey address 0
            · exact iff_of_true (Or.inl hit) (Or.inl hit)
            · have kept : key ∈ next.allocator.extentItems.keys := by
                rw [items_eq]
                exact not_not.mp fun absent =>
                  hit ((not_mem_keys_recycle_iff once present).mp absent)
              rw [or_iff_right hit, or_iff_right hit]
              refine and_congr_right fun small => ?_
              rw [← key_eq] at kept ⊢
              refine ih (stage.closes at_count old_eq items_eq kept) ?_
              simp only [OpenLeaf.add]
              omega

/-! ## Whole passes -/

/-- Only the leaf loop can meet an erased item. -/
theorem createTrees_erased_iff (start : TreeState) :
    (∃ own turns,
        createTrees extentTreeObjectid own turns start = some (.error .erasedItem)) ↔
      UsesErased none {} start := by
  refine exists_congr fun own => exists_congr fun turns => ?_
  rw [createTrees]
  rcases leafLoop extentTreeObjectid own turns none {} start with _ | (error | ⟨leaf, filled⟩)
  · simp
  · simp
  · refine iff_of_false (fun erased => ?_) (by simp)
    simp only at erased
    split at erased
    · cases erased
    · split_ifs at erased
      · cases erased
      · rcases Option.map_eq_some_iff.mp erased with ⟨built, _, shape⟩
        cases built <;> cases shape

/-- The space that each of some items takes in a leaf. -/
def costs (entries : List (BtrfsKey × Bytes)) : List Nat :=
  entries.map fun entry => itemCost entry.2

/--
The items before this one need exactly the given number of leaves, and one
more together with it: in every packing into as few leaves it is the first item
of a leaf.
-/
def OpensLeaf (before : List (BtrfsKey × Bytes)) (data : Bytes) (leaves : Nat) : Prop :=
  CanCut blockSpace (costs before) leaves ∧
    (leaves = 1 ∨ ¬ CanCut blockSpace (costs before) (leaves - 1)) ∧
    ¬ CanCut blockSpace (costs before ++ [itemCost data]) leaves

theorem opensLeaf_iff (before : List (BtrfsKey × Bytes)) (data : Bytes) (closed : Nat) :
    OpensLeaf before data (closed + 1) ↔
      (∀ entry ∈ before, itemCost entry.2 ≤ blockSpace) ∧
        (pack blockSpace ⟨0, 0⟩ (costs before)).closed = closed ∧
        ¬ (pack blockSpace ⟨0, 0⟩ (costs before)).Fits blockSpace (itemCost data) := by
  have small : (∀ size ∈ costs before, size ≤ blockSpace) ↔
      ∀ entry ∈ before, itemCost entry.2 ≤ blockSpace :=
    List.forall_mem_map
  have empty : costs before = [] → (pack blockSpace ⟨0, 0⟩ (costs before)).closed = 0 := by
    intro none_before
    rw [none_before]
    rfl
  obtain ⟨fill, fill_eq⟩ : ∃ fill, pack blockSpace ⟨0, 0⟩ (costs before) = fill := ⟨_, rfl⟩
  rw [OpensLeaf, canCut_iff, canCut_iff, canCut_iff, bins, bins, pack_append, small,
    List.forall_mem_append, small]
  have single : (∀ size ∈ [itemCost data], size ≤ blockSpace) ↔ itemCost data ≤ blockSpace := by
    simp
  have filled : costs before ++ [itemCost data] ≠ [] := by simp
  rw [fill_eq] at empty ⊢
  rw [pack_cons, pack_nil, single, or_iff_right filled]
  constructor
  · rintro ⟨⟨fit, few⟩, several, crowded⟩
    have reached : fill.closed ≤ closed := by
      rcases few with none_before | few
      · rw [empty none_before]
        exact Nat.zero_le _
      · exact Nat.le_of_succ_le_succ few
    refine ⟨fit, ?_, fun fits => crowded ⟨⟨fit, (Nat.le_add_left _ _).trans fits⟩, ?_⟩⟩
    · rcases several with one | several
      · omega
      · refine le_antisymm reached (not_lt.mp fun fewer => several ⟨fit, Or.inr ?_⟩)
        omega
    · rw [Fill.put_of_fits fits]
      exact Nat.succ_le_succ reached
  · rintro ⟨fit, rfl, full⟩
    refine ⟨⟨fit, Or.inr (le_refl _)⟩, ?_, fun crowded => ?_⟩
    · by_cases first : fill.closed = 0
      · exact Or.inl (by rw [first])
      · refine Or.inr fun fewer => ?_
        rcases fewer.2 with none_before | few
        · exact first (empty none_before)
        · omega
    · have closed_le := crowded.2
      rw [Fill.put_of_not_fits full] at closed_le
      simp only at closed_le
      omega

/--
A block of a former pass is recycled for the leaf before the one that its own
item opens, and its level changes.
-/
def RecyclesPosition (items : ItemMap) (old : List (Nat × Nat)) : Prop :=
  ∃ index address level before data after,
    old[index]? = some (address, level) ∧
      metadataKey address level ≠ metadataKey address 0 ∧
      metadataKey address level ∉ (old.take index).map oldKey ∧
      items.entries = before ++ (metadataKey address level, data) :: after ∧
      OpensLeaf before data (index + 1)

theorem struck_iff (items : ItemMap) (old : List (Nat × Nat)) :
    Struck old ⟨0, 0⟩ items.entries ↔ RecyclesPosition items old := by
  constructor
  · rintro ⟨before, address, level, data, after, shape, fit, full, at_stage, apart, absent⟩
    exact ⟨_, address, level, before, data, after, at_stage, apart, absent, shape,
      (opensLeaf_iff before data _).mpr ⟨fit, rfl, full⟩⟩
  · rintro ⟨index, address, level, before, data, after, at_index, apart, absent, shape, opens⟩
    rcases (opensLeaf_iff before data index).mp opens with ⟨fit, rfl, full⟩
    exact ⟨before, address, level, data, after, shape, fit, full, at_index, apart, absent⟩

theorem loopStage_start
    {start : TreeState}
    (once : ∀ entry ∈ start.oldAddresses, DescribedOnce start.allocator.extentItems entry.1) :
    LoopStage start.oldAddresses 0 none start.allocator.extentItems.entries start := by
  refine ⟨rfl, once, ?_⟩
  rw [after_none]
  exact ((List.map_congr_left fun entry _ => moved_nil entry).trans (List.map_id _)).symm

/--
Building the extent tree never uses an erased item, whatever the number of
turns, exactly when no recycled block that changes its level is described by
the item that opens the leaf after the one it is recycled for.
-/
theorem createTrees_erases_iff
    {start : TreeState}
    (once : ∀ entry ∈ start.oldAddresses, DescribedOnce start.allocator.extentItems entry.1) :
    (∀ own turns,
        createTrees extentTreeObjectid own turns start ≠ some (.error .erasedItem)) ↔
      ¬ RecyclesPosition start.allocator.extentItems start.oldAddresses := by
  have room : (({} : OpenLeaf).spaceLeft + (⟨0, 0⟩ : Fill).used) = blockSpace := rfl
  rw [← struck_iff, ← usesErased_iff (loopStage_start once) room, ← createTrees_erased_iff]
  exact ⟨fun never ⟨own, turns, erased⟩ => never own turns erased,
    fun never own turns erased => never ⟨own, turns, erased⟩⟩

/-- A map with one block is safe when that block is recycled as the leaf it was. -/
theorem createTrees_erases_single_leaf :
    let start : TreeState :=
      { allocator :=
          { chunks := [], spaceList := []
            extentItems := SortedMap.empty.emplace (metadataKey 0x200000 0) (metadataItem 2) }
        oldAddresses := [(0x200000, 0)] }
    ∀ own turns,
      createTrees extentTreeObjectid own turns start ≠ some (.error .erasedItem) := by
  intro start
  refine (createTrees_erases_iff fun entry _ => ?_).mpr ?_
  · intro left leftMember right rightMember _ _
    rw [List.mem_singleton.mp leftMember, List.mem_singleton.mp rightMember]
  · rintro ⟨index, address, level, before, data, after, at_index, apart, _⟩
    have equal : (address, level) = (0x200000, 0) :=
      List.mem_singleton.mp (List.mem_of_getElem? at_index)
    cases equal
    exact apart rfl

/--
The items of a data extent with 559 references and of an internal node at the
front of the old addresses: the node opens the second leaf, and its address is
recycled for the first.
-/
def crowdedState : TreeState where
  allocator :=
    { chunks := []
      spaceList := []
      extentItems :=
        (SortedMap.empty.emplace (btrfsKey 0x1000 BtrfsKeyType.extentItem 0x1000)
          (List.replicate 16235 0)).emplace (metadataKey 0x200000 1) (metadataItem 2) }
  oldAddresses := [(0x200000, 1)]

theorem crowdedState_entries :
    crowdedState.allocator.extentItems.entries =
      [(btrfsKey 0x1000 BtrfsKeyType.extentItem 0x1000, List.replicate 16235 0)] ++
        (metadataKey 0x200000 1, metadataItem 2) :: [] :=
  rfl

theorem crowdedState_once :
    ∀ entry ∈ crowdedState.oldAddresses,
      DescribedOnce crowdedState.allocator.extentItems entry.1 := by
  have keys_eq : crowdedState.allocator.extentItems.keys =
      [btrfsKey 0x1000 BtrfsKeyType.extentItem 0x1000, metadataKey 0x200000 1] := rfl
  have other : ∀ address,
      (btrfsKey 0x1000 BtrfsKeyType.extentItem 0x1000).withoutLevel ≠ metadataKey address 0 := by
    intro address equal
    have types : BtrfsKeyType.extentItem = BtrfsKeyType.metadataItem :=
      congrArg (fun key => key.type) equal
    cases types
  intro entry _ left leftMember right rightMember leftSame rightSame
  rw [keys_eq] at leftMember rightMember
  rcases List.mem_pair.mp leftMember with rfl | rfl
  · exact absurd leftSame (other _)
  · rcases List.mem_pair.mp rightMember with rfl | rfl
    · exact absurd rightSame (other _)
    · rfl

theorem crowdedState_recyclesPosition :
    RecyclesPosition crowdedState.allocator.extentItems crowdedState.oldAddresses := by
  have cost : itemCost (List.replicate 16235 0) = 16260 := by
    rw [itemCost, List.length_replicate]
    rfl
  have packed : costs [(btrfsKey 0x1000 BtrfsKeyType.extentItem 0x1000,
      List.replicate 16235 0)] = [16260] :=
    congrArg (fun size => [size]) cost
  refine ⟨0, 0x200000, 1, _, metadataItem 2, [], rfl, by decide, by simp,
    crowdedState_entries, (opensLeaf_iff _ _ 0).mpr ⟨?_, ?_, ?_⟩⟩
  · intro entry member
    rw [List.mem_singleton.mp member, cost]
    decide
  · rw [packed]
    rfl
  · rw [packed, itemCost, length_metadataItem]
    decide

theorem createTrees_erases_crowded :
    (∀ entry ∈ crowdedState.oldAddresses,
        oldKey entry ∈ crowdedState.allocator.extentItems.keys) ∧
      ∃ own turns,
        createTrees extentTreeObjectid own turns crowdedState = some (.error .erasedItem) := by
  constructor
  · intro entry member
    rw [List.mem_singleton.mp member]
    exact mem_keys_iff.mpr ⟨metadataItem 2, by
      rw [crowdedState_entries]
      exact List.mem_append_right _ List.mem_cons_self⟩
  · have room : (({} : OpenLeaf).spaceLeft + (⟨0, 0⟩ : Fill).used) = blockSpace := rfl
    rw [createTrees_erased_iff, usesErased_iff (loopStage_start crowdedState_once) room, struck_iff]
    exact crowdedState_recyclesPosition

end Ntfs2Btrfs
