import Ntfs2Btrfs.Lib.Extents

/-!
# Runs of set bits

A scan reads a sequence of bits from the left and reports every maximal run
of set bits as an extent of positions.  The scan is parametrised by what is
done with a reported run; collecting the runs in a list is the canonical case,
and every other scan is a fold over that list.
-/

namespace BitRuns

open Extents

variable {α : Type*}

/-- The state of a scan: the next position and the run being read. -/
structure Scan (α : Type*) where
  runStart : Nat
  pos : Nat
  set : Bool
  out : α

/-- The state before the first bit. -/
def Scan.initial (out : α) : Scan α :=
  ⟨0, 0, false, out⟩

/-- Report the run that ends at the current position. -/
def Scan.report (emit : α → Extent → α) (scan : Scan α) : α :=
  if scan.pos ≠ scan.runStart then
    emit scan.out ⟨scan.runStart, scan.pos - scan.runStart⟩
  else
    scan.out

/-- Read one bit. -/
def step (emit : α → Extent → α) (scan : Scan α) (bit : Bool) : Scan α :=
  if bit then
    if scan.set then
      { scan with pos := scan.pos + 1 }
    else
      { scan with runStart := scan.pos, set := true, pos := scan.pos + 1 }
  else if scan.set then
    { scan with set := false, out := scan.report emit, pos := scan.pos + 1 }
  else
    { scan with pos := scan.pos + 1 }

/-- Report the run that is still open at the end of the input. -/
def finish (emit : α → Extent → α) (scan : Scan α) : α :=
  if scan.set then scan.report emit else scan.out

/-- Read a sequence of bits from a given state. -/
def read (emit : α → Extent → α) (scan : Scan α) (bits : List Bool) : Scan α :=
  bits.foldl (step emit) scan

section Read

variable (emit : α → Extent → α) (scan : Scan α)

@[simp]
theorem read_nil : read emit scan [] = scan :=
  rfl

@[simp]
theorem read_cons (bit : Bool) (rest : List Bool) :
    read emit scan (bit :: rest) = read emit (step emit scan bit) rest :=
  rfl

@[simp]
theorem read_append (left right : List Bool) :
    read emit scan (left ++ right) = read emit (read emit scan left) right :=
  List.foldl_append

@[simp]
theorem step_set (bit : Bool) :
    (step emit scan bit).set = bit := by
  cases bit <;> simp only [step] <;> split_ifs <;> simp_all

@[simp]
theorem step_pos (bit : Bool) :
    (step emit scan bit).pos = scan.pos + 1 := by
  simp only [step]
  split_ifs <;> rfl

/-- After a non-empty input the scan is inside a run when the last bit is set. -/
theorem read_set (bits : List Bool) :
    (read emit scan bits).set = bits.getLast?.getD scan.set := by
  induction bits generalizing scan with
  | nil => rfl
  | cons bit rest induction =>
      rw [read_cons, induction, step_set, List.getLast?_cons]
      rfl

/-- Equal bits do not change a scan that has already read one, except for its position. -/
theorem read_replicate_set (count : Nat) :
    read emit scan (List.replicate count scan.set) =
      { scan with pos := scan.pos + count } := by
  induction count generalizing scan with
  | zero => rfl
  | succ count induction =>
      rw [List.replicate_succ, read_cons]
      have same : step emit scan scan.set = { scan with pos := scan.pos + 1 } := by
        obtain ⟨runStart, pos, set, out⟩ := scan
        cases set <;> rfl
      have next := induction { scan with pos := scan.pos + 1 }
      simp only at next
      rw [same, next]
      simp only [Nat.add_right_comm, Nat.add_assoc]

/-- Set bits outside a run open one. -/
theorem read_replicate_true
    (outside : scan.set = false) (count : Nat) :
    read emit scan (List.replicate (count + 1) true) =
      { scan with
        runStart := scan.pos, set := true, pos := scan.pos + (count + 1) } := by
  have first : step emit scan true =
      { scan with runStart := scan.pos, set := true, pos := scan.pos + 1 } := by
    simp [step, outside]
  have later := read_replicate_set emit (step emit scan true) count
  rw [first] at later
  rw [List.replicate_succ, read_cons, first, later]
  simp only [Nat.add_comm count, Nat.add_assoc]

/-- Clear bits inside a run report it. -/
theorem read_replicate_false
    (inside : scan.set = true) (count : Nat) :
    read emit scan (List.replicate (count + 1) false) =
      { scan with
        set := false, out := scan.report emit, pos := scan.pos + (count + 1) } := by
  have first : step emit scan false =
      { scan with set := false, out := scan.report emit, pos := scan.pos + 1 } := by
    simp [step, inside]
  have later := read_replicate_set emit (step emit scan false) count
  rw [first] at later
  rw [List.replicate_succ, read_cons, first, later]
  simp only [Nat.add_comm count, Nat.add_assoc]

end Read

/-! ## The list of runs -/

/-- Append a run to a list of runs. -/
def push (runs : List Extent) (run : Extent) : List Extent :=
  runs ++ [run]

/-- The maximal runs of set bits. -/
def runs (bits : List Bool) : List Extent :=
  finish push (read push (Scan.initial []) bits)

/--
Maximal runs of positions: none is empty, and consecutive runs are separated
by at least one position.
-/
structure Separated (runs : List Extent) : Prop where
  positive : ∀ run ∈ runs, 0 < run.length
  ordered : runs.Pairwise fun left right => left.stop < right.offset

theorem separated_nil : Separated [] :=
  ⟨by simp, List.Pairwise.nil⟩

theorem separated_cons_iff (run : Extent) (rest : List Extent) :
    Separated (run :: rest) ↔
      0 < run.length ∧ (∀ next ∈ rest, run.stop < next.offset) ∧
        Separated rest := by
  constructor
  · intro separated
    obtain ⟨first, later⟩ := List.pairwise_cons.mp separated.ordered
    exact
      ⟨separated.positive run (by simp), first,
        ⟨fun next member => separated.positive next (by simp [member]), later⟩⟩
  · rintro ⟨positive, first, later⟩
    refine ⟨?_, List.pairwise_cons.mpr ⟨first, later.ordered⟩⟩
    intro next member
    rcases List.mem_cons.mp member with rfl | tailMember
    · exact positive
    · exact later.positive next tailMember

theorem Separated.tidy
    {runs : List Extent} (separated : Separated runs) :
    Tidy runs :=
  ⟨separated.positive, separated.ordered.imp Nat.le_of_lt⟩

theorem Separated.push
    {runs : List Extent} (separated : Separated runs)
    {run : Extent}
    (positive : 0 < run.length)
    (after : ∀ previous ∈ runs, previous.stop < run.offset) :
    Separated (push runs run) := by
  refine ⟨?_, ?_⟩
  · intro next member
    rcases List.mem_append.mp member with old | new
    · exact separated.positive next old
    · rw [List.mem_singleton.mp new]
      exact positive
  · refine List.pairwise_append.mpr
      ⟨separated.ordered, List.pairwise_singleton _ _, ?_⟩
    intro previous member last lastMember
    rw [List.mem_singleton.mp lastMember]
    exact after previous member

/-- The bit at a position is set. -/
def Marked (bits : List Bool) (position : Nat) : Prop :=
  bits[position]? = some true

instance (bits : List Bool) (position : Nat) :
    Decidable (Marked bits position) :=
  inferInstanceAs (Decidable (_ = _))

theorem Marked.lt_length
    {bits : List Bool} {position : Nat} (marked : Marked bits position) :
    position < bits.length :=
  (List.getElem?_eq_some_iff.mp marked).1

theorem marked_append_singleton_iff
    (bits : List Bool) (bit : Bool) (position : Nat) :
    Marked (bits ++ [bit]) position ↔
      Marked bits position ∨ position = bits.length ∧ bit = true := by
  rcases Nat.lt_trichotomy position bits.length with before | here | after
  · simp [Marked, List.getElem?_append_left before, before.ne]
  · simp [Marked, here]
  · have outside : bits.length + [bit].length ≤ position := by
      simpa using after
    simp [Marked, after.ne', after.le,
      List.getElem?_eq_none (by simpa using outside : (bits ++ [bit]).length ≤ position)]

/-- What a scan knows about the bits that it has read. -/
structure Describes (scan : Scan (List Extent)) (bits : List Bool) : Prop where
  pos_eq : scan.pos = bits.length
  separated : Separated scan.out
  openRun : scan.set = true → scan.runStart < scan.pos
  before :
    ∀ run ∈ scan.out,
      run.stop < if scan.set then scan.runStart else scan.pos
  marked_iff :
    ∀ position,
      Marked bits position ↔
        Covers scan.out position ∨
          scan.set = true ∧ scan.runStart ≤ position ∧ position < scan.pos

theorem describes_initial : Describes (Scan.initial []) [] :=
  ⟨rfl, separated_nil, by simp [Scan.initial], by simp [Scan.initial],
    by simp [Scan.initial, Marked]⟩

/-- Reporting an open run gives all runs up to the current position. -/
theorem Describes.report
    {scan : Scan (List Extent)} {bits : List Bool}
    (describes : Describes scan bits)
    (inside : scan.set = true) :
    Separated (scan.report push) ∧
      (∀ run ∈ scan.report push, run.stop ≤ scan.pos) ∧
      ∀ position, Marked bits position ↔ Covers (scan.report push) position := by
  have started := describes.openRun inside
  have before := describes.before
  have marked := describes.marked_iff
  simp only [inside, if_true, true_and] at before marked
  have reported : scan.report push =
      push scan.out ⟨scan.runStart, scan.pos - scan.runStart⟩ := by
    simp [Scan.report, started.ne']
  rw [reported]
  refine ⟨describes.separated.push (by simp only; omega) before, ?_, ?_⟩
  · intro run member
    rcases List.mem_append.mp member with old | new
    · have := before run old
      omega
    · rw [List.mem_singleton.mp new]
      simp only [Extent.stop_mk]
      omega
  · intro position
    rw [marked]
    simp only [push, covers_append, covers_cons, not_covers_nil, or_false,
      Extent.contains_mk]
    have ends : scan.runStart + (scan.pos - scan.runStart) = scan.pos := by
      omega
    rw [ends]

theorem Describes.step
    {scan : Scan (List Extent)} {bits : List Bool}
    (describes : Describes scan bits) (bit : Bool) :
    Describes (step push scan bit) (bits ++ [bit]) := by
  have length := describes.pos_eq
  have before := describes.before
  have marked := describes.marked_iff
  cases bit with
  | false =>
    by_cases inside : scan.set = true
    · obtain ⟨separated, bounded, covers⟩ := describes.report inside
      simp only [BitRuns.step, inside, Bool.false_eq_true, if_true, if_false]
      refine ⟨by simp [length], separated, by simp, ?_, ?_⟩
      · intro run member
        exact Nat.lt_succ_of_le (bounded run member)
      · intro position
        simp [marked_append_singleton_iff, covers]
    · simp only [BitRuns.step, inside, Bool.false_eq_true, if_false]
      simp only [inside, Bool.false_eq_true, false_and, or_false, if_false]
        at before marked
      refine ⟨by simp [length], describes.separated, by simp, ?_, ?_⟩
      · intro run member
        simpa using Nat.lt_succ_of_lt (before run member)
      · intro position
        simp [marked_append_singleton_iff, marked]
  | true =>
    by_cases inside : scan.set = true
    · have started := describes.openRun inside
      simp only [BitRuns.step, inside, if_true]
      simp only [inside, if_true, true_and] at before marked
      refine ⟨by simp [length], describes.separated, ?_, ?_, ?_⟩
      · intro _
        exact Nat.lt_succ_of_lt started
      · simpa [inside] using before
      · intro position
        simp only [marked_append_singleton_iff, marked, true_and, and_true,
          or_assoc]
        exact or_congr_right (by omega)
    · simp only [BitRuns.step, inside, if_true, if_false, Bool.false_eq_true]
      simp only [inside, Bool.false_eq_true, false_and, or_false, if_false]
        at before marked
      refine ⟨by simp [length], describes.separated, ?_, ?_, ?_⟩
      · intro _
        exact Nat.lt_succ_self _
      · simpa using before
      · intro position
        simp only [marked_append_singleton_iff, marked, true_and, and_true]
        exact or_congr_right (by omega)

theorem Describes.read
    {scan : Scan (List Extent)} {bits : List Bool}
    (describes : Describes scan bits) (rest : List Bool) :
    Describes (read push scan rest) (bits ++ rest) := by
  induction rest generalizing scan bits with
  | nil => simpa using describes
  | cons bit rest induction =>
      have next := induction (describes.step bit)
      simpa using next

/-- The reported runs are maximal and contain exactly the set positions. -/
theorem runs_spec (bits : List Bool) :
    Separated (runs bits) ∧
      ∀ position, Covers (runs bits) position ↔ Marked bits position := by
  have describes := describes_initial.read bits
  rw [List.nil_append] at describes
  rw [runs, finish]
  split_ifs with inside
  · obtain ⟨separated, -, covers⟩ := describes.report inside
    exact ⟨separated, fun position => (covers position).symm⟩
  · refine ⟨describes.separated, fun position => ?_⟩
    rw [describes.marked_iff]
    simp [inside]

theorem runs_separated (bits : List Bool) : Separated (runs bits) :=
  (runs_spec bits).1

theorem covers_runs_iff (bits : List Bool) (position : Nat) :
    Covers (runs bits) position ↔ Marked bits position :=
  (runs_spec bits).2 position

/-- No run is reported when no bit is set. -/
theorem runs_eq_nil_iff (bits : List Bool) :
    runs bits = [] ↔ ∀ position, ¬ Marked bits position := by
  constructor
  · intro empty position marked
    have covered := (covers_runs_iff bits position).mpr marked
    rw [empty] at covered
    exact not_covers_nil position covered
  · intro clear
    apply List.eq_nil_iff_forall_not_mem.mpr
    intro run member
    have positive := (runs_separated bits).positive run member
    have inside : run.Contains run.offset :=
      ⟨le_refl _, Nat.lt_add_of_pos_right positive⟩
    exact clear run.offset
      ((covers_runs_iff bits run.offset).mp ⟨run, member, inside⟩)

/-! ## Scans that do something else with the runs -/

/-- A scan with the effect of its reported runs on another state. -/
def Scan.replay
    (emit : α → Extent → α) (out : α) (scan : Scan (List Extent)) : Scan α :=
  { runStart := scan.runStart, pos := scan.pos, set := scan.set,
    out := scan.out.foldl emit out }

section Replay

variable (emit : α → Extent → α) (out : α)

theorem report_replay (scan : Scan (List Extent)) :
    (scan.replay emit out).report emit =
      (scan.report push).foldl emit out := by
  by_cases advanced : scan.pos = scan.runStart
  · simp [Scan.report, Scan.replay, advanced]
  · simp [Scan.report, Scan.replay, advanced, push]

theorem step_replay (scan : Scan (List Extent)) (bit : Bool) :
    step emit (scan.replay emit out) bit =
      (step push scan bit).replay emit out := by
  have reported := report_replay emit out scan
  have unchanged : (scan.replay emit out).set = scan.set := rfl
  cases bit with
  | false =>
      by_cases inside : scan.set = true
      · simp only [step, unchanged, inside, reported, Bool.false_eq_true,
          if_true, if_false]
        rfl
      · simp only [step, unchanged, inside, Bool.false_eq_true, if_false]
        rfl
  | true =>
      by_cases inside : scan.set = true
      · simp only [step, unchanged, inside, if_true]
        rfl
      · simp only [step, unchanged, inside, Bool.false_eq_true, if_true, if_false]
        rfl

theorem read_replay (scan : Scan (List Extent)) (bits : List Bool) :
    read emit (scan.replay emit out) bits =
      (read push scan bits).replay emit out := by
  induction bits generalizing scan with
  | nil => rfl
  | cons bit rest induction =>
      rw [read_cons, step_replay, induction, read_cons]

/-- Every scan folds its action over the list of runs. -/
theorem finish_read_initial (bits : List Bool) :
    finish emit (read emit (Scan.initial out) bits) =
      (runs bits).foldl emit out := by
  have start : Scan.initial out = (Scan.initial []).replay emit out := rfl
  rw [start, read_replay, runs, finish, finish, report_replay]
  by_cases inside : (read push (Scan.initial []) bits).set = true
  · have same : ((read push (Scan.initial []) bits).replay emit out).set = true :=
      inside
    rw [if_pos inside, if_pos same]
  · have same : ¬ ((read push (Scan.initial []) bits).replay emit out).set = true :=
      inside
    rw [if_neg inside, if_neg same]
    rfl

end Replay

end BitRuns
