import Mathlib.Logic.Basic

/-!
# Computations that count their turns

A loop with a bound on its turns has a result, an error, or no outcome when the bound
does not suffice.  A sequence of such loops comes to an end when each of them does, and
larger bounds do not change the outcome.
-/

universe u v

/-- A computation with an outcome, or none if its turns did not suffice. -/
abbrev Turns (ε : Type u) (α : Type v) : Type (max u v) :=
  Option (Except ε α)

namespace Turns

variable {ε : Type u} {α β : Type v}

/-- Go on with a result. -/
def next (first : Turns ε α) (rest : α → Turns ε β) : Turns ε β :=
  match first with
  | none => none
  | some (.error failure) => some (.error failure)
  | some (.ok value) => rest value

/-- Both computations gave a result. -/
theorem next_eq_ok_iff {first : Turns ε α} {rest : α → Turns ε β} {result : β} :
    first.next rest = some (.ok result) ↔
      ∃ value, first = some (.ok value) ∧ rest value = some (.ok result) := by
  rcases first with _ | (failure | value)
  · constructor
    · intro equal
      cases equal
    · rintro ⟨value, equal, -⟩
      cases equal
  · constructor
    · intro equal
      cases equal
    · rintro ⟨value, equal, -⟩
      cases equal
  · constructor
    · exact fun equal => ⟨value, rfl, equal⟩
    · rintro ⟨other, equal, later⟩
      cases equal
      exact later

/-- The second computation has whatever outcome the first one has. -/
def Extends (first second : Turns ε α) : Prop :=
  ∀ outcome, first = some outcome → second = some outcome

theorem Extends.refl (first : Turns ε α) : Extends first first :=
  fun _ equal => equal

theorem Extends.trans {first second third : Turns ε α}
    (left : Extends first second) (right : Extends second third) : Extends first third :=
  fun outcome equal => right outcome (left outcome equal)

theorem Extends.next
    {first second : Turns ε α} {rest more : α → Turns ε β} (start : Extends first second)
    (later : ∀ value, Extends (rest value) (more value)) :
    Extends (first.next rest) (second.next more) := by
  intro outcome equal
  rcases first with _ | (failure | value)
  · cases equal
  · rw [start _ rfl]
    exact equal
  · rw [start _ rfl]
    exact later value outcome equal

/-- With enough turns a computation has an outcome, and keeps it with more of them. -/
def Ends (loop : Nat → Turns ε α) : Prop :=
  ∃ turns outcome, ∀ more, loop (turns + more) = some outcome

/-- More turns give the outcome that fewer gave. -/
def Monotone (loop : Nat → Turns ε α) : Prop :=
  ∀ turns more, Extends (loop turns) (loop (turns + more))

theorem Monotone.ends {loop : Nat → Turns ε α} (monotone : Monotone loop)
    {turns : Nat} {outcome : Except ε α} (ended : loop turns = some outcome) : Ends loop :=
  ⟨turns, outcome, fun more => monotone turns more outcome ended⟩

theorem Monotone.const (value : Turns ε α) : Monotone fun _ => value :=
  fun _ _ => Extends.refl value

theorem Monotone.next
    {loop : Nat → Turns ε α} {rest : Nat → α → Turns ε β} (first : Monotone loop)
    (later : ∀ value, Monotone fun turns => rest turns value) :
    Monotone fun turns => (loop turns).next (rest turns) :=
  fun turns more => (first turns more).next fun value => later value turns more

/-- One loop after the other ends, if the second one ends behind every result of the first. -/
theorem Ends.next
    {loop : Nat → Turns ε α} {rest : Nat → α → Turns ε β} (first : Ends loop)
    (later : ∀ turns value, loop turns = some (.ok value) → Ends fun turns => rest turns value) :
    Ends fun turns => (loop turns).next (rest turns) := by
  obtain ⟨turns, outcome, ended⟩ := first
  rcases outcome with failure | value
  · refine ⟨turns, .error failure, fun more => ?_⟩
    change (loop (turns + more)).next _ = _
    rw [ended more, Turns.next]
  · obtain ⟨others, outcome, finished⟩ := later turns value (ended 0)
    refine ⟨turns + others, outcome, fun more => ?_⟩
    have front := ended (others + more)
    have back := finished (turns + more)
    rw [← Nat.add_assoc] at front
    rw [← Nat.add_assoc, Nat.add_comm others] at back
    change (loop (turns + others + more)).next _ = _
    rw [front]
    exact back

theorem Ends.done (outcome : Except ε α) : Ends fun _ : Nat => (some outcome : Turns ε α) :=
  ⟨0, outcome, fun _ => rfl⟩

end Turns
