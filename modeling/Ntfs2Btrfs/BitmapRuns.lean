import Ntfs2Btrfs.BitmapScan
import Ntfs2Btrfs.DataBitmap

/-!
# The runs read from a bitmap are its maximal runs

`parse_bitmap` returns the maximal runs of the bits that its loop sees.  They
are those of the bitmap unless a byte of the tail is counted as one bit and a
bit is set in it or after it.

The runs with which a conversion starts are maximal inside their list as well,
since cutting at chunk boundaries and trimming never moves two runs of one list
together.
-/

namespace Ntfs2Btrfs

open Extents
open BitRuns
open ByteStore

/-! ## Bytes that are counted as one bit -/

/-- The extents are the maximal runs of set bits, in order. -/
def MaximalRuns (bits : List Bool) (extents : List Extent) : Prop :=
  Separated extents ∧ ∀ position, Covers extents position ↔ Marked bits position

/--
Every byte after the last whole word counts for eight bits, or nothing is set
from it on.  `set` is the bit before these bytes.
-/
def TailCounted : Bool → Bytes → Prop
  | _, [] => True
  | set, byte :: rest =>
      (byte = 0xff → set = false) ∧
        (byte = 0 → set = false → ∀ later ∈ rest, later = 0) ∧
        TailCounted (byte.toNat.testBit 7) rest

/-- The bytes of a bitmap that are not part of a whole word are counted. -/
def Counted : Bool → Bytes → Prop
  | _, _ :: _ :: _ :: fourth :: rest => Counted (fourth.toNat.testBit 7) rest
  | set, tail => TailCounted set tail

theorem marked_append_iff (left right : List Bool) (position : Nat) :
    Marked (left ++ right) position ↔
      Marked left position ∨
        left.length ≤ position ∧ Marked right (position - left.length) := by
  rcases Nat.lt_or_ge position left.length with before | after
  · simp [Marked, List.getElem?_append_left before, Nat.not_le_of_lt before]
  · simp [Marked, List.getElem?_append_right after, after]

/-- Marks agree behind a common beginning when they agree at its end. -/
theorem marked_append_congr
    (common : List Bool) {left right : List Bool} :
    (∀ position, Marked (common ++ left) position ↔ Marked (common ++ right) position) ↔
      ∀ position, Marked left position ↔ Marked right position := by
  constructor
  · intro same position
    have shifted := same (common.length + position)
    have outside : ¬ Marked common (common.length + position) := fun marked =>
      Nat.not_lt_of_le (Nat.le_add_right _ _) marked.lt_length
    simpa [marked_append_iff, outside] using shifted
  · intro same position
    rw [marked_append_iff, marked_append_iff, same]

theorem bitmapBits_cons (byte : UInt8) (rest : Bytes) :
    bitmapBits (byte :: rest) = byteBits byte ++ bitmapBits rest := by
  simp [bitmapBits]

theorem byteBits_zero : byteBits 0 = List.replicate 8 false := by
  decide

theorem byteBits_full : byteBits 0xff = List.replicate 8 true := by
  decide

theorem not_marked_replicate_false (count position : Nat) :
    ¬ Marked (List.replicate count false) position := by
  intro marked
  have member : true ∈ List.replicate count false := List.mem_of_getElem? marked
  simp [List.mem_replicate] at member

/-- Nothing is set in a list of zero bytes. -/
theorem not_marked_of_zero
    {tail : Bytes} (zero : ∀ byte ∈ tail, byte = 0) (position : Nat) :
    ¬ Marked (bitmapBits tail) position := by
  intro marked
  have member : true ∈ bitmapBits tail := List.mem_of_getElem? marked
  obtain ⟨byte, byteMember, bit⟩ := List.mem_flatMap.mp member
  rw [zero byte byteMember, byteBits_zero] at bit
  simp at bit

theorem exists_marked_of_ne_zero
    {tail : Bytes} {byte : UInt8} (member : byte ∈ tail) (nonzero : byte ≠ 0) :
    ∃ position, Marked (bitmapBits tail) position := by
  rw [exists_marked_iff]
  refine List.mem_flatMap.mpr ⟨byte, member, ?_⟩
  by_contra clear
  have bits (index : Nat) (small : index < 8) : byte.toNat.testBit index = false := by
    by_contra marked
    refine clear (List.mem_map.mpr ⟨index, List.mem_range.mpr small, ?_⟩)
    simpa using marked
  have value : byte.toNat = 0 := by
    refine Nat.eq_of_testBit_eq fun index => ?_
    rw [Nat.zero_testBit]
    rcases Nat.lt_or_ge index 8 with small | large
    · exact bits index small
    · have bound : byte.toNat < 2 ^ index :=
        byte.toNat_lt.trans_le (Nat.pow_le_pow_right (by decide) large)
      exact Nat.testBit_lt_two_pow bound
  exact nonzero (UInt8.toNat_inj.mp value)

/-- When every byte counts for eight bits the loop sees the marks of the bitmap. -/
theorem TailCounted.marked_iff
    {set : Bool} {tail : Bytes} (counted : TailCounted set tail) (position : Nat) :
    Marked (tailBits set tail) position ↔ Marked (bitmapBits tail) position := by
  induction tail generalizing set position with
  | nil => rfl
  | cons byte rest induction =>
      obtain ⟨full, zero, restCounted⟩ := counted
      by_cases same : byte = (if set then 0xff else 0)
      · cases set with
        | true => exact absurd (full same) (by decide)
        | false =>
          -- nothing is set from here on, whatever the positions are
          have clear : ∀ later ∈ byte :: rest, later = 0 := by
            intro later member
            rcases List.mem_cons.mp member with rfl | restMember
            · exact same
            · exact zero same rfl later restMember
          have allClear : true ∉ tailBits false (byte :: rest) := by
            rw [true_mem_tailBits_iff, ← exists_marked_iff]
            rintro ⟨marked, isMarked⟩
            exact not_marked_of_zero clear marked isMarked
          refine iff_of_false ?_ (not_marked_of_zero clear position)
          exact fun marked => allClear (List.mem_of_getElem? marked)
      · rw [tailBits, if_neg same, bitmapBits_cons]
        exact (marked_append_congr _).mpr (induction restCounted) position

/-- A byte that is read bit by bit leaves the condition to the bytes behind it. -/
theorem tailCounted_cons_iff
    {set : Bool} {byte : UInt8} {rest : Bytes}
    (different : byte ≠ if set then 0xff else 0) :
    TailCounted set (byte :: rest) ↔ TailCounted (byte.toNat.testBit 7) rest := by
  constructor
  · exact fun counted => counted.2.2
  · refine fun counted => ⟨fun full => ?_, fun zero outside => ?_, counted⟩
    · cases set with
      | false => rfl
      | true => exact absurd full different
    · rw [outside] at different
      exact absurd zero different

theorem tailCounted_of_zero
    {tail : Bytes} (zero : ∀ byte ∈ tail, byte = 0) (set : Bool) :
    TailCounted set tail := by
  induction tail generalizing set with
  | nil => trivial
  | cons byte rest induction =>
      obtain ⟨first, later⟩ := List.forall_mem_cons.mp zero
      refine ⟨fun full => ?_, fun _ _ => later, induction later _⟩
      rw [first] at full
      exact absurd full (by decide)

theorem exists_marked_tailBits_iff (set : Bool) (tail : Bytes) :
    (∃ position, Marked (tailBits set tail) position) ↔
      ∃ position, Marked (bitmapBits tail) position := by
  rw [exists_marked_iff, exists_marked_iff, true_mem_tailBits_iff]

/-- A sequence with a mark has a last one. -/
theorem exists_last_marked
    {bits : List Bool} (marks : ∃ position, Marked bits position) :
    ∃ last, Marked bits last ∧ ∀ position, Marked bits position → position ≤ last := by
  obtain ⟨some_, marked⟩ := marks
  refine ⟨Nat.findGreatest (Marked bits) bits.length, ?_, fun position here => ?_⟩
  · exact Nat.findGreatest_spec (Nat.le_of_lt marked.lt_length) marked
  · exact Nat.le_findGreatest (Nat.le_of_lt here.lt_length) here

/--
The last mark of the tail bounds the marks that the loop sees, and by a margin
of seven when a byte that matters counts for one bit only.
-/
theorem exists_marked_above
    (set : Bool) {tail : Bytes} (marks : ∃ position, Marked (bitmapBits tail) position) :
    ∃ last, Marked (bitmapBits tail) last ∧
      ∀ seen, Marked (tailBits set tail) seen →
        seen ≤ last ∧ (¬ TailCounted set tail → seen + 7 ≤ last) := by
  induction tail generalizing set with
  | nil =>
      obtain ⟨position, marked⟩ := marks
      exact absurd marked.lt_length (by simp [bitmapBits])
  | cons byte rest induction =>
      rw [bitmapBits_cons] at marks ⊢
      by_cases restMarks : ∃ position, Marked (bitmapBits rest) position
      · -- the last mark lies behind this byte
        have shifted {last : Nat} (marked : Marked (bitmapBits rest) last) :
            Marked (byteBits byte ++ bitmapBits rest) (8 + last) := by
          rw [marked_append_iff]
          exact Or.inr ⟨by simp, by simpa using marked⟩
        by_cases same : byte = (if set then 0xff else 0)
        · obtain ⟨last, marked, above⟩ := induction set restMarks
          refine ⟨8 + last, shifted marked, fun seen seenMarked => ?_⟩
          rw [tailBits, if_pos same] at seenMarked
          have bound : seen ≤ last + 1 := by
            cases seen with
            | zero => exact Nat.zero_le _
            | succ seen =>
                exact Nat.succ_le_succ (above seen (by simpa [Marked] using seenMarked)).1
          exact ⟨by omega, fun _ => by omega⟩
        · obtain ⟨last, marked, above⟩ := induction (byte.toNat.testBit 7) restMarks
          refine ⟨8 + last, shifted marked, fun seen seenMarked => ?_⟩
          rw [tailBits, if_neg same, marked_append_iff, length_byteBits] at seenMarked
          rw [tailCounted_cons_iff same]
          rcases seenMarked with here | ⟨after, later⟩
          · have small := here.lt_length
            rw [length_byteBits] at small
            refine ⟨by omega, fun short => ?_⟩
            obtain ⟨other, otherMarked⟩ :=
              (exists_marked_tailBits_iff (byte.toNat.testBit 7) rest).mpr restMarks
            have margin := (above other otherMarked).2 short
            omega
          · obtain ⟨bound, margin⟩ := above _ later
            refine ⟨by omega, fun short => ?_⟩
            have more := margin short
            omega
      · -- the last mark is in this byte, and only zero bytes follow
        have clear : ∀ later ∈ rest, later = 0 := fun later member =>
          not_not.mp fun nonzero => restMarks (exists_marked_of_ne_zero member nonzero)
        have seenClear (after : Bool) (position : Nat) :
            ¬ Marked (tailBits after rest) position := fun marked =>
          restMarks ((exists_marked_tailBits_iff after rest).mp ⟨position, marked⟩)
        by_cases same : byte = (if set then 0xff else 0)
        · cases set with
          | false =>
            obtain ⟨position, marked⟩ := marks
            rw [← bitmapBits_cons] at marked
            refine absurd marked (not_marked_of_zero (fun later member => ?_) position)
            rcases List.mem_cons.mp member with rfl | restMember
            · exact same
            · exact clear later restMember
          | true =>
            have full : byte = 0xff := same
            refine ⟨7, ?_, fun seen seenMarked => ?_⟩
            · rw [full, byteBits_full, marked_append_iff]
              exact Or.inl (by decide)
            · rw [tailBits, if_pos same] at seenMarked
              cases seen with
              | zero => exact ⟨by decide, fun _ => le_rfl⟩
              | succ seen =>
                  exact absurd (by simpa [Marked] using seenMarked) (seenClear true seen)
        · obtain ⟨last, marked, greatest⟩ := exists_last_marked marks
          refine ⟨last, marked, fun seen seenMarked => ⟨greatest seen ?_, fun short => ?_⟩⟩
          · rw [tailBits, if_neg same, marked_append_iff] at seenMarked
            rw [marked_append_iff]
            rcases seenMarked with here | ⟨-, later⟩
            · exact Or.inl here
            · exact absurd later (seenClear _ _)
          · exact absurd ((tailCounted_cons_iff same).mpr (tailCounted_of_zero clear _)) short

/-- The loop over bytes sees the marks of the tail exactly when every byte counts. -/
theorem tailCounted_iff (set : Bool) (tail : Bytes) :
    (∀ position, Marked (tailBits set tail) position ↔ Marked (bitmapBits tail) position) ↔
      TailCounted set tail := by
  constructor
  · intro same
    by_contra short
    by_cases marks : ∃ position, Marked (bitmapBits tail) position
    · obtain ⟨last, marked, above⟩ := exists_marked_above set marks
      have margin := (above last ((same last).mpr marked)).2 short
      omega
    · refine short (tailCounted_of_zero (fun byte member => ?_) set)
      exact not_not.mp fun nonzero => marks (exists_marked_of_ne_zero member nonzero)
  · exact fun counted => counted.marked_iff

theorem counted_iff (set : Bool) (bitmap : Bytes) :
    (∀ position, Marked (scannedBitsFrom set bitmap) position ↔
        Marked (bitmapBits bitmap) position) ↔
      Counted set bitmap := by
  fun_induction scannedBitsFrom set bitmap with
  | case1 set first second third fourth rest induction =>
      have split : bitmapBits (first :: second :: third :: fourth :: rest) =
          bitmapBits [first, second, third, fourth] ++ bitmapBits rest :=
        bitmapBits_append [first, second, third, fourth] rest
      rw [split, marked_append_congr, induction, Counted]
  | case2 set tail short =>
      rw [tailCounted_iff, Counted]
      exact short

/-! ## `parse_bitmap` -/

/--
The runs that `parse_bitmap` returns are the maximal runs of set bits exactly
when every byte behind the last whole word counts for eight bits, or no bit is
set from it on.
-/
theorem maximalRuns_parseBitmap_iff (bitmap : Bytes) :
    MaximalRuns (bitmapBits bitmap) (parseBitmap bitmap) ↔ Counted false bitmap := by
  rw [MaximalRuns, parseBitmap_eq, and_iff_right (runs_separated _), ← counted_iff]
  exact forall_congr' fun position => by rw [covers_runs_iff, scannedBits]

/-- A clear byte before a set bit moves that bit from position 8 to position 1. -/
theorem maximalRuns_parseBitmap_counterexample :
    parseBitmap [0x00, 0x01] = [⟨1, 1⟩] ∧ Marked (bitmapBits [0x00, 0x01]) 8 ∧
      ¬ MaximalRuns (bitmapBits [0x00, 0x01]) (parseBitmap [0x00, 0x01]) := by
  refine ⟨by decide, by decide, fun maximal => ?_⟩
  have covered := (maximal.2 8).mpr (by decide)
  exact absurd covered (by decide)

/-! ## The runs of a list never touch -/

/-- Between two runs of one list there is room for a cluster. -/
def Runs.Apart (runs : Runs) : Prop :=
  ∀ chunk, (runs.list chunk).Pairwise fun left right => left.stop < right.offset

theorem Runs.apart_empty : Runs.Apart SortedMap.empty := by
  intro chunk
  rw [Runs.list_empty]
  exact List.Pairwise.nil

/-- Only the list that changes has to be looked at. -/
theorem Runs.Apart.assign
    {runs : Runs} (apart : runs.Apart) {chunk : Nat} {runList : List DataAlloc}
    (listApart : runList.Pairwise fun left right => left.stop < right.offset) :
    Runs.Apart (runs.assign chunk runList) := by
  intro other
  rw [Runs.list_assign]
  split_ifs
  · exact listApart
  · exact apart other

theorem Runs.Apart.push
    {runs : Runs} (apart : runs.Apart) {chunk offset length : Nat}
    (after : ∀ run ∈ runs.list chunk, run.stop < offset) :
    (runs.push chunk offset length).Apart := by
  refine apart.assign (List.pairwise_append.mpr
    ⟨apart chunk, List.pairwise_singleton _ _, fun run member next single => ?_⟩)
  rw [List.mem_singleton.mp single]
  exact after run member

/-- The pieces of a run go to different lists. -/
theorem addRun_apart
    {clustersPerChunk : Nat} (chunks : 0 < clustersPerChunk) (turns : Nat) :
    ∀ {runs : Runs} {start stop : Nat},
      runs.Apart → (∀ run ∈ runs.all, run.stop ≤ start) →
        (∀ run ∈ runs.list (start / clustersPerChunk), run.stop < start) →
        (addRun clustersPerChunk turns runs start stop).Apart := by
  induction turns with
  | zero => exact fun apart _ _ => apart
  | succ turns ih =>
    intro runs start stop apart before after
    have small := Nat.mod_lt start chunks
    have split := Nat.div_add_mod start clustersPerChunk
    rw [Nat.mul_comm] at split
    have boundary :
        start + (clustersPerChunk - start % clustersPerChunk) =
          (start / clustersPerChunk + 1) * clustersPerChunk := by
      rw [Nat.succ_mul]
      omega
    have pushed (length : Nat) :
        (runs.push (start / clustersPerChunk) start length).Apart := apart.push after
    rw [addRun]
    dsimp only
    split_ifs with crosses ends
    · exact pushed _
    · refine ih (pushed _) (fun run member => ?_) (fun run member => ?_)
      · rcases Runs.mem_all_push.mp member with old | rfl
        · exact (before run old).trans (Nat.le_add_right _ _)
        · exact le_rfl
      · rw [boundary, Nat.mul_div_cancel _ chunks, Runs.push, Runs.list_assign,
          if_neg (Nat.succ_ne_self _)] at member
        have old := before run (Runs.mem_all_iff.mpr ⟨_, member⟩)
        omega
    · exact pushed _

theorem foldl_addRun_apart
    {clustersPerChunk : Nat} (chunks : 0 < clustersPerChunk) (extents : List Extent) :
    ∀ {runs : Runs}, runs.FromBitmap clustersPerChunk → runs.Apart → Separated extents →
      (∀ extent ∈ extents, ∀ run ∈ runs.all, run.stop < extent.offset) →
        Runs.Apart (extents.foldl
          (fun runs run =>
            addRun clustersPerChunk run.length runs run.offset run.stop) runs) := by
  induction extents with
  | nil => exact fun _ apart _ _ => apart
  | cons extent rest ih =>
    intro runs fromBitmap apart separated before
    obtain ⟨positive, later, restSeparated⟩ := (separated_cons_iff extent rest).mp separated
    have here := before extent List.mem_cons_self
    have start : ReadUntil clustersPerChunk runs extent.offset :=
      ⟨fromBitmap, fun run member => Nat.le_of_lt (here run member)⟩
    have ordered : extent.offset < extent.stop := Nat.lt_add_of_pos_right positive
    obtain ⟨added, -⟩ := addRun_spec chunks extent.length start ordered
      (Nat.add_sub_cancel_left extent.offset extent.length).le
    refine ih added.toFromBitmap ?_ restSeparated fun next member run runMember => ?_
    · exact addRun_apart chunks extent.length apart start.before
        fun run member => here run (Runs.mem_all_iff.mpr ⟨_, member⟩)
    · exact lt_of_le_of_lt (added.before run runMember) (later next member)

theorem parseDataBitmap_apart
    {clustersPerChunk : Nat} (chunks : 0 < clustersPerChunk) (bitmap : Bytes) :
    (parseDataBitmap clustersPerChunk bitmap).Apart := by
  rw [parseDataBitmap, scanBitmap_eq]
  exact foldl_addRun_apart chunks _ (readUntil_empty clustersPerChunk).toFromBitmap
    Runs.apart_empty (runs_separated _) fun _ _ _ member => absurd member List.not_mem_nil

/-- Trimming removes runs from the end of a list or cuts the end of one. -/
theorem trimRuns_apart (volume : Volume) (turns : Nat) :
    ∀ {runs : Runs}, runs.FromBitmap volume.clustersPerChunk → runs.Apart →
      (trimRuns volume turns runs).Apart := by
  induction turns with
  | zero => exact fun _ apart => apart
  | succ turns ih =>
    intro runs fromBitmap apart
    cases entry : runs.entries.getLast? with
    | none =>
      rw [trimRuns, entry]
      exact apart
    | some pair =>
      obtain ⟨chunk, runList⟩ := pair
      cases found : runList.getLast? with
      | none =>
        exact absurd (List.getLast?_eq_none_iff.mp found)
          (fromBitmap.nonempty _ (List.mem_of_getLast? entry))
      | some last =>
        have lastRun := fromBitmap.lastRun entry found
        have listApart := apart chunk
        rw [lastRun.listEq, lastRun.split] at listApart
        obtain ⟨frontApart, -, before⟩ := List.pairwise_append.mp listApart
        rw [trimRuns, entry]
        simp only [found]
        split_ifs
        · refine ih (lastRun.popBack fromBitmap) fun other => ?_
          rw [Runs.list_popBack]
          split_ifs
          · exact (apart chunk).sublist (List.dropLast_sublist _)
          · exact apart other
        all_goals
          first
          | exact apart
          | refine apart.assign (List.pairwise_append.mpr
              ⟨frontApart, List.pairwise_singleton _ _, fun run member next single => ?_⟩)
            rw [List.mem_singleton.mp single]
            exact before run member last (List.mem_singleton_self _)

/-! ## The runs of a volume -/

/-- Two members of a list whose runs do not touch are equal or have room between them. -/
theorem eq_or_apart
    {runList : List DataAlloc}
    (apart : runList.Pairwise fun left right => left.stop < right.offset)
    {left right : DataAlloc} (leftMember : left ∈ runList) (rightMember : right ∈ runList) :
    left = right ∨ left.stop < right.offset ∨ right.stop < left.offset := by
  induction runList with
  | nil => exact absurd leftMember List.not_mem_nil
  | cons head rest induction =>
      obtain ⟨later, restApart⟩ := List.pairwise_cons.mp apart
      rcases List.mem_cons.mp leftMember with rfl | leftRest
      · rcases List.mem_cons.mp rightMember with rfl | rightRest
        · exact Or.inl rfl
        · exact Or.inr (Or.inl (later right rightRest))
      · rcases List.mem_cons.mp rightMember with rfl | rightRest
        · exact Or.inr (Or.inr (later left leftRest))
        · exact induction restApart leftRest rightRest

/-- The cluster behind a run is in no run when another run of the list follows. -/
theorem Runs.Apart.not_covers_stop
    {runs : Runs} (apart : runs.Apart)
    {clustersPerChunk : Nat} (wellFormed : runs.WellFormed clustersPerChunk)
    {chunk : Nat} {left right : DataAlloc}
    (leftMember : left ∈ runs.list chunk) (rightMember : right ∈ runs.list chunk)
    (before : left.stop < right.offset) :
    ¬ runs.Covers left.stop := by
  rintro ⟨run, member, inside⟩
  obtain ⟨other, runMember⟩ := Runs.mem_all_iff.mp member
  have chunkEq := wellFormed.chunk_eq runMember inside
  have sameChunk : left.stop / clustersPerChunk = chunk := by
    have lists := (Runs.wellFormed_iff.mp wellFormed chunk).2
    have lower := (lists left leftMember).1.trans (Nat.le_add_right left.offset left.length)
    have upper := (lists right rightMember).2
    have inRight : right.offset ≤ right.stop := Nat.le_add_right _ _
    exact Nat.div_eq_of_lt_le lower (lt_of_lt_of_le before (inRight.trans upper))
  rw [chunkEq] at sameChunk
  rw [sameChunk] at runMember
  obtain ⟨lower, upper⟩ : run.offset ≤ left.stop ∧ left.stop < run.stop := inside
  rcases eq_or_apart (apart chunk) leftMember runMember with rfl | after | early
  · exact absurd upper (Nat.lt_irrefl _)
  · exact absurd lower (Nat.not_le_of_lt after)
  · have stop : left.offset ≤ left.stop := Nat.le_add_right _ _
    omega

/--
The runs of a volume whose bitmap is made of whole words: they cover the
clusters in use that start on the volume, they lie in their chunks, and between
two runs of one list some cluster is not in use.
-/
theorem volumeRuns_maximal
    (volume : Volume) (bitmap : Bytes) (whole : 4 ∣ bitmap.length) :
    (∀ cluster, (volumeRuns volume bitmap).Covers cluster ↔
      ClusterInUse bitmap cluster ∧
        cluster * volume.cluster.bytes < volume.origDeviceSize) ∧
    (volumeRuns volume bitmap).WellFormed volume.clustersPerChunk ∧
    (∀ entry ∈ (volumeRuns volume bitmap).entries, entry.2 ≠ []) ∧
    ∀ entry ∈ (volumeRuns volume bitmap).entries,
      entry.2.Pairwise fun left right =>
        ∃ cluster, left.stop ≤ cluster ∧ cluster < right.offset ∧
          ¬ ClusterInUse bitmap cluster := by
  obtain ⟨fromBitmap, covers⟩ := volumeRuns_spec volume bitmap
  rw [scannedBits_of_whole whole] at covers
  refine ⟨covers, fromBitmap.wellFormed, fromBitmap.nonempty, fun entry member => ?_⟩
  have apart : (volumeRuns volume bitmap).Apart :=
    trimRuns_apart volume _ (parseDataBitmap_spec volume.clustersPerChunk_pos bitmap).1
      (parseDataBitmap_apart volume.clustersPerChunk_pos bitmap)
  have listEq := Runs.list_eq_of_mem member
  have entryApart := apart entry.1
  rw [listEq] at entryApart
  refine entryApart.imp_of_mem fun {left right} leftMember rightMember before => ?_
  rw [← listEq] at leftMember rightMember
  refine ⟨left.stop, le_rfl, before, fun inUse => ?_⟩
  -- the clusters up to the next run start on the volume
  have rightCovered : (volumeRuns volume bitmap).Covers right.offset :=
    ⟨right, Runs.mem_all_iff.mpr ⟨entry.1, rightMember⟩, le_rfl,
      Nat.lt_add_of_pos_right
        ((Runs.wellFormed_iff.mp fromBitmap.wellFormed entry.1).1.positive rightMember)⟩
  have onVolume := ((covers right.offset).mp rightCovered).2
  refine apart.not_covers_stop fromBitmap.wellFormed leftMember rightMember before
    ((covers left.stop).mpr ⟨inUse, ?_⟩)
  exact lt_of_le_of_lt (Nat.mul_le_mul_right _ before.le) onVolume

/-- A volume of 2 MiB with clusters of 1 MiB, of which the first is in use. -/
theorem volumeRuns_maximal_small :
    4 ∣ ([0x01, 0, 0, 0] : Bytes).length ∧
      (volumeRuns ⟨0x200000, ⟨20, by decide, by decide⟩, by decide⟩
        [0x01, 0, 0, 0]).Covers 0 :=
  ⟨by decide,
    ((volumeRuns_maximal ⟨0x200000, ⟨20, by decide, by decide⟩, by decide⟩
      [0x01, 0, 0, 0] (by decide)).1 0).mpr (by decide)⟩

end Ntfs2Btrfs
