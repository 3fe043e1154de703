import Mathlib.Data.List.Basic
import Mathlib.Data.List.Nodup
import Mathlib.Data.List.Perm.Basic

/-!
# Visits with an early exit, and lists grouped by a key

A loop calls a visitor for the elements of a list, which may fail and which
returns whether to go on.  The visitor that keeps what it is given tells the
order of the visits.

A list is regrouped by taking the elements of one key after those of another.
The result is a permutation of the list, and it is ordered if the list is and
the groups are.
-/

namespace Visits

/-! ## Visits -/

section Visits

variable {ε σ α β : Type*}

/-- Call the visitor for the elements, until it does not want to go on. -/
def forEach (visit : σ → α → Except ε (Bool × σ)) : List α → σ → Except ε (Bool × σ)
  | [], state => .ok (true, state)
  | a :: rest, state =>
      visit state a >>= fun called =>
        if called.1 = false then .ok (false, called.2) else forEach visit rest called.2

theorem forEach_cons
    (visit : σ → α → Except ε (Bool × σ)) (a : α) (rest : List α) (state : σ) :
    forEach visit (a :: rest) state =
      visit state a >>= fun called =>
        if called.1 = false then .ok (false, called.2) else forEach visit rest called.2 :=
  rfl

theorem forEach_append
    (visit : σ → α → Except ε (Bool × σ)) (front back : List α) (state : σ) :
    forEach visit (front ++ back) state =
      forEach visit front state >>= fun called =>
        if called.1 = false then .ok (false, called.2) else forEach visit back called.2 := by
  induction front generalizing state with
  | nil => rfl
  | cons a front ih =>
    rw [List.cons_append, forEach_cons, forEach_cons]
    cases visit state a with
    | error stop => rfl
    | ok called =>
      obtain ⟨goOn, next⟩ := called
      cases goOn with
      | false => rfl
      | true => exact ih next

/-- If the visitor skips what does not match and stops where something does, it sees the first match. -/
theorem forEach_of_find
    {γ : Type*} (visit : σ → β → Except ε (Bool × σ)) (give : γ → β) {matching : γ → Bool}
    {list : List γ} (state : σ)
    (skips : ∀ a ∈ list, matching a = false → visit state (give a) = .ok (true, state))
    {first : γ} (found : list.find? matching = some first)
    (stops : ∀ called, visit state (give first) = .ok called → called.1 = false) :
    forEach visit (list.map give) state = visit state (give first) := by
  induction list with
  | nil => cases found
  | cons a rest ih =>
    rw [List.map_cons, forEach_cons]
    rw [List.find?_cons] at found
    cases isMatch : matching a with
    | true =>
      rw [isMatch] at found
      obtain rfl := Option.some.inj found
      cases visited : visit state (give a) with
      | error stop => rfl
      | ok called =>
        obtain ⟨goOn, next⟩ := called
        obtain rfl : goOn = false := stops _ visited
        rfl
    | false =>
      rw [isMatch] at found
      rw [skips a List.mem_cons_self isMatch]
      exact ih (fun b inRest => skips b (List.mem_cons_of_mem _ inRest)) found

/-- The visitor that keeps what it is given. -/
def collect (kept : List β) (given : β) : Except ε (Bool × List β) :=
  .ok (true, kept ++ [given])

theorem forEach_collect (list kept : List β) :
    forEach (fun kept given => (collect kept given : Except ε (Bool × List β))) list kept =
      .ok (true, kept ++ list) := by
  induction list generalizing kept with
  | nil => rw [List.append_nil]; rfl
  | cons given list ih =>
    rw [forEach_cons]
    show forEach collect list (kept ++ [given]) = _
    rw [ih, List.append_assoc, List.singleton_append]

end Visits

/-! ## Groups -/

section Groups

variable {α κ : Type*} [DecidableEq κ]

/-- Put a key behind the others unless it is one of them. -/
def note (keys : List κ) (key : κ) : List κ :=
  if key ∈ keys then keys else keys ++ [key]

/-- The given keys, and those of a list by first appearance. -/
def keysOf (key : α → κ) (list : List α) (keys : List κ) : List κ :=
  list.foldl (fun keys a => note keys (key a)) keys

/-- The elements of a list in groups, in the order of the keys. -/
def regroup (key : α → κ) (keys : List κ) (list : List α) : List α :=
  keys.flatMap fun k => list.filter fun a => key a = k

theorem nodup_note {keys : List κ} (nodup : keys.Nodup) (key : κ) : (note keys key).Nodup := by
  rw [note]
  split_ifs with known
  · exact nodup
  · rw [← List.concat_eq_append]
    exact nodup.concat known

theorem mem_note {keys : List κ} {key other : κ} :
    other ∈ note keys key ↔ other ∈ keys ∨ other = key := by
  rw [note]
  split_ifs with known
  · constructor
    · exact Or.inl
    · rintro (inKeys | rfl)
      · exact inKeys
      · exact known
  · rw [List.mem_append, List.mem_singleton]

theorem nodup_keysOf (key : α → κ) (list : List α) {keys : List κ} (nodup : keys.Nodup) :
    (keysOf key list keys).Nodup := by
  induction list generalizing keys with
  | nil => exact nodup
  | cons a list ih => exact ih (nodup_note nodup (key a))

theorem mem_keysOf {key : α → κ} {list : List α} {keys : List κ} {k : κ} :
    k ∈ keysOf key list keys ↔ k ∈ keys ∨ ∃ a ∈ list, key a = k := by
  induction list generalizing keys with
  | nil => simp [keysOf]
  | cons a list ih =>
    show k ∈ keysOf key list (note keys (key a)) ↔ _
    rw [ih, mem_note]
    simp only [List.mem_cons, exists_eq_or_imp]
    rw [or_assoc, @eq_comm _ k (key a)]

theorem regroup_nil (key : α → κ) (keys : List κ) : regroup key keys ([] : List α) = [] := by
  simp [regroup]

theorem regroup_cons_of_not_mem
    {key : α → κ} {keys : List κ} {a : α} (absent : key a ∉ keys) (list : List α) :
    regroup key keys (a :: list) = regroup key keys list := by
  refine List.flatMap_congr fun k known => ?_
  have other : key a ≠ k := by
    rintro rfl
    exact absent known
  rw [List.filter_cons_of_neg (by simpa using other)]

/-- Regrouping moves the elements around. -/
theorem regroup_perm
    {key : α → κ} {keys : List κ} (nodup : keys.Nodup) {list : List α}
    (known : ∀ a ∈ list, key a ∈ keys) : (regroup key keys list).Perm list := by
  induction list with
  | nil => rw [regroup_nil]
  | cons a list ih =>
    obtain ⟨front, back, rfl⟩ := List.append_of_mem (known a List.mem_cons_self)
    have apart := List.nodup_append'.mp nodup
    have notFront : key a ∉ front := fun inFront =>
      apart.2.2 inFront List.mem_cons_self
    have notBack : key a ∉ back := (List.nodup_cons.mp apart.2.1).1
    have split (rest : List α) : regroup key (front ++ key a :: back) rest =
        regroup key front rest ++ (rest.filter (fun b => key b = key a) ++
          regroup key back rest) := by
      simp only [regroup, List.flatMap_append, List.flatMap_cons]
    rw [split, regroup_cons_of_not_mem notFront, regroup_cons_of_not_mem notBack,
      List.filter_cons_of_pos (by simp), List.cons_append]
    refine List.perm_middle.trans (List.Perm.cons a ?_)
    rw [← split]
    exact ih fun b inList => known b (List.mem_cons_of_mem _ inList)

/-- An ordered list stays ordered if the groups are. -/
theorem pairwise_regroup_iff
    (key : α → κ) (keys : List κ) {list : List α} {related : α → α → Prop}
    (ordered : list.Pairwise related) :
    (regroup key keys list).Pairwise related ↔
      ∀ a ∈ list, ∀ b ∈ list, [key a, key b].Sublist keys → related a b := by
  rw [regroup, List.pairwise_flatMap]
  constructor
  · rintro ⟨-, apart⟩ a inList b alsoIn before
    refine List.pairwise_iff_forall_sublist.mp apart before a ?_ b ?_
    · exact List.mem_filter.mpr ⟨inList, by simp⟩
    · exact List.mem_filter.mpr ⟨alsoIn, by simp⟩
  · intro groups
    refine ⟨fun k _ => ordered.filter _, List.pairwise_iff_forall_sublist.mpr ?_⟩
    intro first second before a inFirst b inSecond
    obtain ⟨inList, isFirst⟩ := List.mem_filter.mp inFirst
    obtain ⟨alsoIn, isSecond⟩ := List.mem_filter.mp inSecond
    obtain rfl : key a = first := by simpa using isFirst
    obtain rfl : key b = second := by simpa using isSecond
    exact groups a inList b alsoIn before

end Groups

end Visits
