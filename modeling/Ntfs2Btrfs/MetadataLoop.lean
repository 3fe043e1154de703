import Ntfs2Btrfs.ChunkItems
import Ntfs2Btrfs.Lib.Turns
import Ntfs2Btrfs.TreeTermination

/-!
# The loop that builds the metadata

`convert` builds the trees of all roots but three once.  The extent, chunk and device
trees describe the chunks and blocks that building them allocates, so they are built
again and again, until a pass has allocated nothing.

The loop ends: a pass that is followed by another one has taken a block out of the
free space.
-/

namespace Ntfs2Btrfs

/-! ## Roots -/

def devTreeObjectid : Nat := 4

/-- The fields of a `root` that building its tree uses; its number is kept beside it. -/
structure TreeRoot where
  items : ItemMap
  trees : List TreeBlock := []
  level : Nat := 0
  treeAddr : Nat := 0
  metadataSize : Nat := 0
  addresses : List (Nat × Nat) := []
  oldAddresses : List (Nat × Nat) := []
  allocationsDone : Bool := false

/-- The state that `create_trees` is called in. -/
def TreeRoot.start (root : TreeRoot) (allocator : Allocator) : TreeState where
  allocator := allocator
  trees := root.trees
  level := root.level
  treeAddr := root.treeAddr
  metadataSize := root.metadataSize
  addresses := root.addresses
  oldAddresses := root.oldAddresses
  allocationsDone := root.allocationsDone

/-- The root after `create_trees`. -/
def TreeRoot.finish (root : TreeRoot) (final : TreeState) : TreeRoot where
  items := root.items
  trees := final.trees
  level := final.level
  treeAddr := final.treeAddr
  metadataSize := final.metadataSize
  addresses := final.addresses
  oldAddresses := final.oldAddresses
  allocationsDone := final.allocationsDone

/-- What the loop does to a root before its tree is built again. -/
def TreeRoot.reset (root : TreeRoot) : TreeRoot :=
  { root with
    oldAddresses := root.addresses
    addresses := []
    metadataSize := root.metadataSize - root.trees.length * treeSize
    trees := []
    allocationsDone := false }

/--
What the end of `convert` works on.  The items of the extent root are those of the
allocator; the other roots stand in the order in which they are built.
-/
structure Metadata where
  allocator : Allocator
  extentRoot : TreeRoot
  chunkRoot : TreeRoot
  devRoot : TreeRoot
  others : List (Nat × TreeRoot)

/-! ## Passes -/

/-- `create_trees` of a root -/
def buildRoot (turns id : Nat) (root : TreeRoot) (allocator : Allocator) :
    Turns TreeError (TreeRoot × Allocator) :=
  Turns.next (createTrees id root.items turns (root.start allocator)) fun final =>
    some (.ok (root.finish final, final.allocator))

/-- The roots that are built once. -/
def buildOthers (turns : Nat) :
    List (Nat × TreeRoot) → Allocator → Turns TreeError (List (Nat × TreeRoot) × Allocator)
  | [], allocator => some (.ok ([], allocator))
  | (id, root) :: rest, allocator =>
      Turns.next (buildRoot turns id root allocator) fun built =>
        Turns.next (buildOthers turns rest built.2) fun later =>
          some (.ok ((id, built.1) :: later.1, later.2))

/-- `add_chunk` for the chunks that were not added before. -/
def addChunks (identity : DeviceIdentity) (unset : Nat → Nat) :
    List Chunk → ChunkRoots → Except ConvertError ChunkRoots
  | [], roots => .ok roots
  | chunk :: rest, roots =>
      if chunk.added then addChunks identity unset rest roots
      else do
        let next ← addChunk identity (unset chunk.offset) chunk roots
        addChunks identity unset rest next

/-- The chunks as they are after all of them were added. -/
def Allocator.addedAll (state : Allocator) (items : ItemMap) : Allocator :=
  { state with
    chunks := state.chunks.map fun chunk => { chunk with added := true }
    chunksChanged := false
    extentItems := items }

/-- The first half of a pass: describe the chunks that are new. -/
def Metadata.describeChunks (identity : DeviceIdentity) (unset : Nat → Nat) (state : Metadata) :
    Except TreeError Metadata :=
  match addChunks identity unset state.allocator.chunks
      ⟨state.chunkRoot.items, state.devRoot.items, state.allocator.extentItems⟩ with
  | .error failure => .error (.convert failure)
  | .ok described =>
      .ok
        { state with
          allocator := state.allocator.addedAll described.extentItems
          chunkRoot := { state.chunkRoot with items := described.chunkItems }
          devRoot := { state.devRoot with items := described.devItems } }

/-- The second half of a pass: build the three trees again. -/
def Metadata.rebuild (turns : Nat) (state : Metadata) : Turns TreeError Metadata :=
  Turns.next (buildRoot turns extentTreeObjectid state.extentRoot.reset state.allocator)
    fun extent =>
      Turns.next (buildRoot turns chunkTreeObjectid state.chunkRoot.reset extent.2) fun chunk =>
        Turns.next (buildRoot turns devTreeObjectid state.devRoot.reset chunk.2) fun dev =>
          some (.ok
            { state with
              allocator := dev.2
              extentRoot := extent.1
              chunkRoot := chunk.1
              devRoot := dev.1 })

/-- One turn of the loop. -/
def metadataPass (identity : DeviceIdentity) (unset : Nat → Nat) (turns : Nat)
    (state : Metadata) : Turns TreeError Metadata :=
  Turns.next (some (state.describeChunks identity unset)) (Metadata.rebuild turns)

/-- A pass made a chunk or allocated a block. -/
def Metadata.Changed (state : Metadata) : Prop :=
  state.allocator.chunksChanged ∨ state.extentRoot.allocationsDone ∨
    state.chunkRoot.allocationsDone ∨ state.devRoot.allocationsDone

instance (state : Metadata) : Decidable state.Changed :=
  inferInstanceAs (Decidable (_ ∨ _ ∨ _ ∨ _))

/-- The loop at the end of `convert`. -/
def metadataLoop (identity : DeviceIdentity) (unset : Nat → Nat) (turns : Nat) :
    Nat → Metadata → Turns TreeError Metadata
  | 0, _ => none
  | passes + 1, state =>
      Turns.next (metadataPass identity unset turns state) fun next =>
        if next.Changed then metadataLoop identity unset turns passes next
        else some (.ok next)

/-- Build the trees of all roots. -/
def buildMetadata (identity : DeviceIdentity) (unset : Nat → Nat) (turns passes : Nat)
    (state : Metadata) : Turns TreeError Metadata :=
  Turns.next (buildOthers turns state.others state.allocator) fun built =>
    metadataLoop identity unset turns passes
      { state with others := built.1, allocator := built.2 }

/-! ## What a root takes -/

/-- Nothing was allocated, or a block was taken out of the free space. -/
def Progress (limit : Nat) (state next : TreeState) : Prop :=
  freeBlocks limit next.allocator = freeBlocks limit state.allocator ∧
      next.allocator.chunksChanged = state.allocator.chunksChanged ∧
      next.allocationsDone = state.allocationsDone ∨
    freeBlocks limit next.allocator + 1 ≤ freeBlocks limit state.allocator

theorem Progress.le
    {limit : Nat} {state next : TreeState} (progress : Progress limit state next) :
    freeBlocks limit next.allocator ≤ freeBlocks limit state.allocator := by
  rcases progress with ⟨same, -, -⟩ | less
  · exact same.le
  · omega

theorem Progress.trans
    {limit : Nat} {first second third : TreeState} (left : Progress limit first second)
    (right : Progress limit second third) : Progress limit first third := by
  rcases left with ⟨same, changed, done⟩ | less
  · rcases right with ⟨same', changed', done'⟩ | less
    · exact Or.inl ⟨same'.trans same, changed'.trans changed, done'.trans done⟩
    · exact Or.inr (same ▸ less)
  · have later := right.le
    exact Or.inr (by omega)

theorem Flushed.progress
    {id limit : Nat} {state last : TreeState} {blocks : List TreeBlock}
    (chain : Flushed id state blocks last) (bounded : Bounded limit state.allocator) :
    Bounded limit last.allocator ∧ Progress limit state last := by
  induction chain with
  | done same =>
    rw [same.allocator]
    refine ⟨bounded, Or.inl ⟨?_, ?_, same.allocationsDone⟩⟩
    · rw [same.allocator]
    · rw [same.allocator]
  | flush same flushed _ _ ih =>
    obtain ⟨kept, step⟩ := flushTree_progress flushed (same.allocator ▸ bounded)
    obtain ⟨last, later⟩ := ih kept
    refine ⟨last, Progress.trans ?_ later⟩
    rw [Progress, ← same.allocator, ← same.allocationsDone]
    exact step

theorem buildRoot_ok_iff
    {turns id : Nat} {root next : TreeRoot} {allocator last : Allocator} :
    buildRoot turns id root allocator = some (.ok (next, last)) ↔
      ∃ final, createTrees id root.items turns (root.start allocator) = some (.ok final) ∧
        next = root.finish final ∧ last = final.allocator := by
  rw [buildRoot, Turns.next_eq_ok_iff]
  refine exists_congr fun final => and_congr_right fun _ => ?_
  constructor
  · intro equal
    cases equal
    exact ⟨rfl, rfl⟩
  · rintro ⟨rfl, rfl⟩
    rfl

/-- Building a root allocates nothing or takes free blocks. -/
theorem buildRoot_progress
    {turns id limit : Nat} {root next : TreeRoot} {allocator last : Allocator}
    (built : buildRoot turns id root allocator = some (.ok (next, last)))
    (bounded : Bounded limit allocator) :
    Bounded limit last ∧
      (freeBlocks limit last = freeBlocks limit allocator ∧
          last.chunksChanged = allocator.chunksChanged ∧
          next.allocationsDone = root.allocationsDone ∨
        freeBlocks limit last + 1 ≤ freeBlocks limit allocator) := by
  obtain ⟨final, created, rfl, rfl⟩ := buildRoot_ok_iff.mp built
  obtain ⟨blocks, chain⟩ := createTrees_flushed created
  exact chain.progress bounded

theorem buildRoot_monotone (id : Nat) (root : TreeRoot) (allocator : Allocator) :
    Turns.Monotone fun turns => buildRoot turns id root allocator :=
  Turns.Monotone.next
    (fun _ more _ created => createTrees_more created more)
    (fun _ => Turns.Monotone.const _)

theorem buildRoot_ends
    {limit id : Nat} {root : TreeRoot} {allocator : Allocator}
    (bounded : Bounded limit allocator) (cleared : root.trees = []) :
    Turns.Ends fun turns => buildRoot turns id root allocator := by
  obtain ⟨turns, outcome, created⟩ :=
    @createTrees_returns limit id root.items (root.start allocator) bounded cleared
  refine Turns.Ends.next ⟨turns, outcome, fun more => createTrees_more created more⟩ ?_
  exact fun _ _ _ => Turns.Ends.done _

/-! ## What a pass takes -/

theorem Allocator.free_addedAll (state : Allocator) (items : ItemMap) (point : Nat) :
    (state.addedAll items).Free point ↔ state.Free point := by
  refine or_congr ⟨?_, ?_⟩ Iff.rfl
  · rintro ⟨chunk, member, free⟩
    obtain ⟨old, inside, rfl⟩ := List.mem_map.mp member
    exact ⟨old, inside, free⟩
  · rintro ⟨chunk, member, free⟩
    exact ⟨_, List.mem_map_of_mem member, free⟩

theorem Bounded.addedAll
    {limit : Nat} {state : Allocator} (bounded : Bounded limit state) (items : ItemMap) :
    Bounded limit (state.addedAll items) := by
  have wellFormed := bounded.wellFormed
  refine ⟨⟨?_, ?_, wellFormed.spaceTidy, wellFormed.spaceAligned, ?_⟩, ⟨?_, bounded.inside.spaces⟩⟩
  · refine List.forall_mem_map.mpr fun chunk member => ?_
    have whole := wellFormed.chunks chunk member
    exact ⟨whole.placed, whole.startAligned, whole.lengthAligned, whole.tidy, whole.inside,
      whole.offStripes⟩
  · exact List.pairwise_map.mpr wellFormed.apart
  · exact fun space inSpaces => List.forall_mem_map.mpr (wellFormed.spaceApart space inSpaces)
  · exact List.forall_mem_map.mpr bounded.inside.chunks

theorem freeBlocks_addedAll (limit : Nat) (state : Allocator) (items : ItemMap) :
    freeBlocks limit (state.addedAll items) = freeBlocks limit state := by
  have same : (state.addedAll items).Free = state.Free :=
    funext fun point => propext (state.free_addedAll items point)
  rw [freeBlocks, freeBlocks, freeBytes, freeBytes, same]

theorem describeChunks_ok
    {identity : DeviceIdentity} {unset : Nat → Nat} {state next : Metadata}
    (described : state.describeChunks identity unset = .ok next) :
    ∃ roots,
      addChunks identity unset state.allocator.chunks
          ⟨state.chunkRoot.items, state.devRoot.items, state.allocator.extentItems⟩ = .ok roots ∧
        next =
          { state with
            allocator := state.allocator.addedAll roots.extentItems
            chunkRoot := { state.chunkRoot with items := roots.chunkItems }
            devRoot := { state.devRoot with items := roots.devItems } } := by
  rw [Metadata.describeChunks] at described
  cases added : addChunks identity unset state.allocator.chunks
      ⟨state.chunkRoot.items, state.devRoot.items, state.allocator.extentItems⟩ with
  | error failure =>
    rw [added] at described
    cases described
  | ok roots =>
    rw [added] at described
    cases described
    exact ⟨roots, rfl, rfl⟩

/-- The three trees are built one after the other. -/
theorem rebuild_ok_iff {turns : Nat} {state next : Metadata} :
    state.rebuild turns = some (.ok next) ↔
      ∃ extent chunk dev,
        buildRoot turns extentTreeObjectid state.extentRoot.reset state.allocator =
            some (.ok extent) ∧
          buildRoot turns chunkTreeObjectid state.chunkRoot.reset extent.2 = some (.ok chunk) ∧
          buildRoot turns devTreeObjectid state.devRoot.reset chunk.2 = some (.ok dev) ∧
          next =
            { state with
              allocator := dev.2
              extentRoot := extent.1
              chunkRoot := chunk.1
              devRoot := dev.1 } := by
  rw [Metadata.rebuild, Turns.next_eq_ok_iff]
  refine exists_congr fun extent => ?_
  rw [Turns.next_eq_ok_iff]
  constructor
  · rintro ⟨first, chunk, second, later⟩
    obtain ⟨dev, third, equal⟩ := Turns.next_eq_ok_iff.mp later
    cases equal
    exact ⟨chunk, dev, first, second, third, rfl⟩
  · rintro ⟨chunk, dev, first, second, third, rfl⟩
    exact ⟨first, chunk, second, Turns.next_eq_ok_iff.mpr ⟨dev, third, rfl⟩⟩

/-- A pass after which the loop goes on took a free block. -/
theorem metadataPass_progress
    {identity : DeviceIdentity} {unset : Nat → Nat} {turns limit : Nat} {state next : Metadata}
    (passed : metadataPass identity unset turns state = some (.ok next))
    (bounded : Bounded limit state.allocator) :
    Bounded limit next.allocator ∧
      (next.Changed →
        freeBlocks limit next.allocator + 1 ≤ freeBlocks limit state.allocator) := by
  obtain ⟨middle, described, rebuilt⟩ := Turns.next_eq_ok_iff.mp passed
  obtain ⟨roots, -, rfl⟩ := describeChunks_ok (Option.some.inj described)
  obtain ⟨⟨extent, allocator⟩, ⟨chunk, between⟩, ⟨dev, last⟩, first, second, third, rfl⟩ :=
    rebuild_ok_iff.mp rebuilt
  have same := freeBlocks_addedAll limit state.allocator roots.extentItems
  obtain ⟨kept, extentStep⟩ := buildRoot_progress first (bounded.addedAll _)
  obtain ⟨kept', chunkStep⟩ := buildRoot_progress second kept
  obtain ⟨final, devStep⟩ := buildRoot_progress third kept'
  refine ⟨final, fun changed => ?_⟩
  dsimp only at extentStep chunkStep devStep changed ⊢
  rw [same] at extentStep
  rcases extentStep with ⟨equal, chunks, done⟩ | less
  · rcases chunkStep with ⟨equal', chunks', done'⟩ | less
    · rcases devStep with ⟨equal'', chunks'', done''⟩ | less
      · rw [Metadata.Changed, done, done', done'', chunks'', chunks', chunks] at changed
        simp [TreeRoot.reset, Allocator.addedAll] at changed
      · omega
    · rcases devStep with ⟨equal'', -, -⟩ | less'
      · omega
      · omega
  · rcases chunkStep with ⟨equal', -, -⟩ | less'
    · rcases devStep with ⟨equal'', -, -⟩ | less''
      · omega
      · omega
    · rcases devStep with ⟨equal'', -, -⟩ | less''
      · omega
      · omega

/-! ## The loop ends -/

theorem rebuild_ends
    {limit : Nat} {state : Metadata} (bounded : Bounded limit state.allocator) :
    Turns.Ends fun turns => state.rebuild turns := by
  refine Turns.Ends.next (buildRoot_ends bounded rfl) fun turns extent built => ?_
  have kept := (buildRoot_progress built bounded).1
  refine Turns.Ends.next (buildRoot_ends kept rfl) fun turns chunk built => ?_
  have kept := (buildRoot_progress built kept).1
  refine Turns.Ends.next (buildRoot_ends kept rfl) fun turns dev built => ?_
  exact Turns.Ends.done _

theorem metadataPass_ends
    {limit : Nat} (identity : DeviceIdentity) (unset : Nat → Nat) {state : Metadata}
    (bounded : Bounded limit state.allocator) :
    Turns.Ends fun turns => metadataPass identity unset turns state := by
  refine Turns.Ends.next (Turns.Ends.done _) fun turns next described => ?_
  obtain ⟨roots, -, rfl⟩ := describeChunks_ok (Option.some.inj described)
  exact rebuild_ends (bounded.addedAll _)

/--
The loop makes at most one pass more than there are free blocks, and each pass ends:
it comes to an end with consistent trees or with an exception.
-/
theorem metadataLoop_ends
    {limit passes : Nat} (identity : DeviceIdentity) (unset : Nat → Nat) {state : Metadata}
    (bounded : Bounded limit state.allocator)
    (enough : freeBlocks limit state.allocator < passes) :
    Turns.Ends fun turns => metadataLoop identity unset turns passes state := by
  induction passes generalizing state with
  | zero => exact absurd enough (Nat.not_lt_zero _)
  | succ passes ih =>
    refine Turns.Ends.next (metadataPass_ends identity unset bounded) fun turns next passed => ?_
    obtain ⟨kept, taken⟩ := metadataPass_progress passed bounded
    by_cases changed : next.Changed
    · have less := taken changed
      simp only [if_pos changed]
      exact ih kept (by omega)
    · simp only [if_neg changed]
      exact Turns.Ends.done _

theorem buildOthers_progress
    {turns limit : Nat} {roots built : List (Nat × TreeRoot)} {allocator last : Allocator}
    (ended : buildOthers turns roots allocator = some (.ok (built, last)))
    (bounded : Bounded limit allocator) :
    Bounded limit last ∧ freeBlocks limit last ≤ freeBlocks limit allocator := by
  induction roots generalizing allocator built last with
  | nil =>
    cases ended
    exact ⟨bounded, le_refl _⟩
  | cons entry rest ih =>
    obtain ⟨⟨first, between⟩, front, later⟩ := Turns.next_eq_ok_iff.mp ended
    obtain ⟨⟨others, final⟩, back, equal⟩ := Turns.next_eq_ok_iff.mp later
    cases equal
    obtain ⟨kept, step⟩ := buildRoot_progress front bounded
    obtain ⟨whole, less⟩ := ih back kept
    refine ⟨whole, less.trans ?_⟩
    rcases step with ⟨same, -, -⟩ | taken
    · exact same.le
    · exact (Nat.le_succ _).trans taken

theorem buildOthers_ends
    {limit : Nat} {roots : List (Nat × TreeRoot)} {allocator : Allocator}
    (bounded : Bounded limit allocator) (cleared : ∀ entry ∈ roots, entry.2.trees = []) :
    Turns.Ends fun turns => buildOthers turns roots allocator := by
  induction roots generalizing allocator with
  | nil => exact Turns.Ends.done _
  | cons entry rest ih =>
    obtain ⟨first, others⟩ := List.forall_mem_cons.mp cleared
    refine Turns.Ends.next (buildRoot_ends bounded first) fun turns built ended => ?_
    refine Turns.Ends.next (ih (buildRoot_progress ended bounded).1 others) fun turns later _ => ?_
    exact Turns.Ends.done _

/--
Building the metadata ends, with trees or with an exception: however many roots, chunks
and items there are, the loop needs no more passes than there are free blocks, and one.
-/
theorem buildMetadata_ends
    {limit passes : Nat} (identity : DeviceIdentity) (unset : Nat → Nat) {state : Metadata}
    (bounded : Bounded limit state.allocator)
    (cleared : ∀ entry ∈ state.others, entry.2.trees = [])
    (enough : freeBlocks limit state.allocator < passes) :
    Turns.Ends fun turns => buildMetadata identity unset turns passes state := by
  refine Turns.Ends.next (buildOthers_ends bounded cleared) fun turns built ended => ?_
  obtain ⟨kept, less⟩ := buildOthers_progress ended bounded
  exact metadataLoop_ends identity unset kept (less.trans_lt enough)

/-! ## What building keeps -/

/-- What holds of the allocator whatever is allocated for trees, and however it is described. -/
structure KeptByBuilding (P : Allocator → Prop) : Prop where
  items : ∀ state items, P state → P { state with extentItems := items }
  added : ∀ state items, P state → P (state.addedAll items)
  allocate : ∀ {state next : Allocator} {root level address : Nat},
    allocateMetadata root level state = (.ok address, next) → P state → P next

namespace KeptByBuilding

variable {P : Allocator → Prop} (kept : KeptByBuilding P)
include kept

theorem flushed
    {id : Nat} {state last : TreeState} {blocks : List TreeBlock}
    (chain : Flushed id state blocks last) (start : P state.allocator) : P last.allocator := by
  refine @Flushed.preserves id state last blocks (fun state => P state.allocator) chain ?_ ?_ start
  · intro state last same holds
    rwa [same.allocator]
  · intro state next level body flushed holds
    obtain ⟨address, -, -, ⟨oldLevel, -, allocator, -⟩ | ⟨-, -, allocated, -⟩⟩ :=
      flushTree_cases flushed
    · rw [allocator]
      exact kept.items _ _ holds
    · exact kept.allocate allocated holds

theorem buildRoot
    {turns id : Nat} {root next : TreeRoot} {allocator last : Allocator}
    (built : Ntfs2Btrfs.buildRoot turns id root allocator = some (.ok (next, last)))
    (start : P allocator) : P last := by
  obtain ⟨final, created, rfl, rfl⟩ := buildRoot_ok_iff.mp built
  obtain ⟨blocks, chain⟩ := createTrees_flushed created
  exact kept.flushed chain start

theorem buildOthers
    {turns : Nat} {roots built : List (Nat × TreeRoot)} {allocator last : Allocator}
    (ended : Ntfs2Btrfs.buildOthers turns roots allocator = some (.ok (built, last)))
    (start : P allocator) : P last := by
  induction roots generalizing allocator built last with
  | nil =>
    cases ended
    exact start
  | cons entry rest ih =>
    obtain ⟨⟨first, between⟩, front, later⟩ := Turns.next_eq_ok_iff.mp ended
    obtain ⟨⟨others, final⟩, back, equal⟩ := Turns.next_eq_ok_iff.mp later
    cases equal
    exact ih back (kept.buildRoot front start)

variable {identity : DeviceIdentity} {unset : Nat → Nat} {turns : Nat}

theorem metadataPass
    {state next : Metadata}
    (passed : Ntfs2Btrfs.metadataPass identity unset turns state = some (.ok next))
    (start : P state.allocator) : P next.allocator := by
  obtain ⟨middle, described, rebuilt⟩ := Turns.next_eq_ok_iff.mp passed
  obtain ⟨roots, -, rfl⟩ := describeChunks_ok (Option.some.inj described)
  obtain ⟨extent, chunk, dev, first, second, third, rfl⟩ := rebuild_ok_iff.mp rebuilt
  exact kept.buildRoot third (kept.buildRoot second (kept.buildRoot first (kept.added _ _ start)))

theorem metadataLoop
    {passes : Nat} {state final : Metadata}
    (ended : Ntfs2Btrfs.metadataLoop identity unset turns passes state = some (.ok final))
    (start : P state.allocator) : P final.allocator := by
  induction passes generalizing state with
  | zero => cases ended
  | succ passes ih =>
    obtain ⟨next, passed, later⟩ := Turns.next_eq_ok_iff.mp ended
    have holds := kept.metadataPass passed start
    split_ifs at later
    · exact ih later holds
    · cases later
      exact holds

/-- It holds when all trees have been built. -/
theorem buildMetadata
    {passes : Nat} {state final : Metadata}
    (built : Ntfs2Btrfs.buildMetadata identity unset turns passes state = some (.ok final))
    (start : P state.allocator) : P final.allocator := by
  obtain ⟨others, ended, looped⟩ := Turns.next_eq_ok_iff.mp built
  exact kept.metadataLoop looped (kept.buildOthers ended start)

end KeptByBuilding

theorem keptByBuilding_bounded (limit : Nat) : KeptByBuilding (Bounded limit) where
  items := fun _ items bounded => bounded.with_items items
  added := fun _ items bounded => bounded.addedAll items
  allocate := fun allocated bounded => (bounded.allocateMetadata allocated).1

/-- A volume with a metadata chunk and a system chunk, both not described yet. -/
def smallMetadata : Metadata where
  allocator :=
    { chunks :=
        [freshChunk 0x100000 0x100000 blockGroupMetadata,
          freshChunk 0x200000 0x100000 blockGroupSystem]
      spaceList := [] }
  extentRoot := { items := SortedMap.empty }
  chunkRoot := { items := SortedMap.empty }
  devRoot := { items := SortedMap.empty }
  others :=
    [(5, { items := SortedMap.empty.emplace (btrfsKey 0x100 BtrfsKeyType.inodeItem 0) [1, 2] })]

/-- Identifiers of zeros, with CRC-32C as the checksum. -/
def smallIdentity : DeviceIdentity where
  fsid := List.replicate 16 0
  chunkTreeUuid := List.replicate 16 0
  csum := treeHashCrc32c
  devUuid := List.replicate 16 0
  fsid_length := rfl
  chunkTreeUuid_length := rfl
  csum_length := fun _ => rfl
  devUuid_length := rfl

theorem smallMetadata_bounded : Bounded 0x300000 smallMetadata.allocator := by
  have each {P : Chunk → Prop} (metadata : P (freshChunk 0x100000 0x100000 blockGroupMetadata))
      (system : P (freshChunk 0x200000 0x100000 blockGroupSystem)) :
      ∀ chunk ∈ smallMetadata.allocator.chunks, P chunk :=
    List.forall_mem_cons.mpr ⟨metadata, List.forall_mem_singleton.mpr system⟩
  refine ⟨⟨each ?_ ?_, ?_, Extents.tidy_nil, fun space member => absurd member List.not_mem_nil,
    fun space member => absurd member List.not_mem_nil⟩, each ?_ ?_,
    fun space member => absurd member List.not_mem_nil⟩
  · exact freshChunk_wellFormed (by decide) (by decide) (by decide)
  · exact freshChunk_wellFormed (by decide) (by decide) (by decide)
  · refine List.pairwise_pair.mpr (Or.inl ?_)
    decide
  · decide
  · decide

theorem buildMetadata_ends_small :
    Turns.Ends fun turns =>
      buildMetadata smallIdentity (fun _ => 0) turns (0x300000 / treeSize + 1) smallMetadata :=
  buildMetadata_ends smallIdentity (fun _ => 0) smallMetadata_bounded
    (List.forall_mem_singleton.mpr rfl) (Nat.lt_succ_of_le (freeBlocks_le _ _))

end Ntfs2Btrfs
