import Mathlib.Tactic
import Mathlib.Order.Defs.LinearOrder

/-!
# Ordered maps as strictly sorted association lists

The entries of a map are stored in strictly increasing key order, so equality
of maps is equality of their entry lists, iteration order is list order, and
the successor of a key is the first later entry.  The operations are those of
an ordered container whose insertion keeps an existing entry.
-/

universe u v

/-- A finite map whose entries are listed in strictly increasing key order. -/
structure SortedMap (κ : Type u) (ν : Type v) [LinearOrder κ] where
  entries : List (κ × ν)
  sorted : entries.Pairwise fun left right => left.1 < right.1

namespace SortedMap

variable {κ : Type u} {ν : Type v} [LinearOrder κ]

@[ext]
theorem ext {left right : SortedMap κ ν}
    (equal : left.entries = right.entries) :
    left = right := by
  cases left
  cases right
  cases equal
  rfl

instance [DecidableEq ν] : DecidableEq (SortedMap κ ν) :=
  fun left right =>
    decidable_of_iff (left.entries = right.entries)
      ⟨ext, fun equal => congrArg entries equal⟩

/-- The map without entries. -/
def empty : SortedMap κ ν :=
  ⟨[], List.Pairwise.nil⟩

instance : Inhabited (SortedMap κ ν) := ⟨empty⟩

/-- The keys in increasing order. -/
def keys (map : SortedMap κ ν) : List κ :=
  map.entries.map Prod.fst

/-- The value stored under a key. -/
def find? (map : SortedMap κ ν) (key : κ) : Option ν :=
  (map.entries.find? fun entry => entry.1 = key).map Prod.snd

/-- Change every value. -/
def mapValues (map : SortedMap κ ν) (change : ν → ν) : SortedMap κ ν where
  entries := map.entries.map fun entry => (entry.1, change entry.2)
  sorted := List.pairwise_map.mpr map.sorted

/-- Number of entries. -/
def size (map : SortedMap κ ν) : Nat :=
  map.entries.length

@[simp]
theorem mem_keys_iff {map : SortedMap κ ν} {key : κ} :
    key ∈ map.keys ↔ ∃ value, (key, value) ∈ map.entries := by
  simp [keys]

/-- A key has at most one value. -/
theorem value_unique
    {map : SortedMap κ ν} {key : κ} {left right : ν}
    (leftMember : (key, left) ∈ map.entries)
    (rightMember : (key, right) ∈ map.entries) :
    left = right := by
  have pairwise := map.sorted
  revert leftMember rightMember pairwise
  induction map.entries with
  | nil => intro leftMember; simp at leftMember
  | cons head rest induction =>
      intro leftMember rightMember pairwise
      obtain ⟨first, later⟩ := List.pairwise_cons.mp pairwise
      rcases List.mem_cons.mp leftMember with leftHead | leftTail
      · rcases List.mem_cons.mp rightMember with rightHead | rightTail
        · exact (Prod.mk.inj (leftHead.trans rightHead.symm)).2
        · have less := first _ rightTail
          rw [← leftHead] at less
          exact absurd less (lt_irrefl key)
      · rcases List.mem_cons.mp rightMember with rightHead | rightTail
        · have less := first _ leftTail
          rw [← rightHead] at less
          exact absurd less (lt_irrefl key)
        · exact induction leftTail rightTail later

theorem find?_eq_some_iff {map : SortedMap κ ν} {key : κ} {value : ν} :
    map.find? key = some value ↔ (key, value) ∈ map.entries := by
  constructor
  · intro found
    simp only [find?, Option.map_eq_some_iff] at found
    obtain ⟨⟨foundKey, foundValue⟩, located, rfl⟩ := found
    have matched := List.find?_some located
    have keyEqual : foundKey = key := by simpa using matched
    subst keyEqual
    exact List.mem_of_find?_eq_some located
  · intro member
    cases located : map.entries.find? fun entry => decide (entry.1 = key) with
    | none =>
        have absent := List.find?_eq_none.mp located _ member
        simp at absent
    | some entry =>
        have matched := List.find?_some located
        have keyEqual : entry.1 = key := by simpa using matched
        have entryMember := List.mem_of_find?_eq_some located
        obtain ⟨entryKey, entryValue⟩ := entry
        subst keyEqual
        simp [find?, located, value_unique entryMember member]

theorem find?_eq_none_iff {map : SortedMap κ ν} {key : κ} :
    map.find? key = none ↔ key ∉ map.keys := by
  rw [Option.eq_none_iff_forall_ne_some, mem_keys_iff, not_exists]
  exact forall_congr' fun value => not_congr find?_eq_some_iff

/-! ## Insertion -/

/-- Insert into a sorted entry list, keeping an entry that already has the key. -/
def insertEntry (key : κ) (value : ν) : List (κ × ν) → List (κ × ν)
  | [] => [(key, value)]
  | head :: rest =>
      if key < head.1 then (key, value) :: head :: rest
      else if key = head.1 then head :: rest
      else head :: insertEntry key value rest

theorem mem_insertEntry_of_mem
    {key : κ} {value : ν} {list : List (κ × ν)} {entry : κ × ν}
    (member : entry ∈ list) :
    entry ∈ insertEntry key value list := by
  induction list with
  | nil => simp at member
  | cons head rest induction =>
      rw [insertEntry]
      split_ifs
      · exact List.mem_cons_of_mem _ member
      · exact member
      · rcases List.mem_cons.mp member with rfl | tailMember
        · exact List.mem_cons_self
        · exact List.mem_cons_of_mem _ (induction tailMember)

theorem mem_insertEntry
    {key : κ} {value : ν} {list : List (κ × ν)} {entry : κ × ν}
    (member : entry ∈ insertEntry key value list) :
    entry = (key, value) ∨ entry ∈ list := by
  induction list with
  | nil => exact Or.inl (by simpa [insertEntry] using member)
  | cons head rest induction =>
      rw [insertEntry] at member
      split_ifs at member
      · exact List.mem_cons.mp member
      · exact Or.inr member
      · rcases List.mem_cons.mp member with rfl | tailMember
        · exact Or.inr List.mem_cons_self
        · exact (induction tailMember).imp_right (List.mem_cons_of_mem _)

theorem insertEntry_self_mem
    {key : κ} {value : ν} {list : List (κ × ν)}
    (fresh : key ∉ list.map Prod.fst) :
    (key, value) ∈ insertEntry key value list := by
  induction list with
  | nil => simp [insertEntry]
  | cons head rest induction =>
      simp only [List.map_cons, List.mem_cons, not_or] at fresh
      rw [insertEntry, if_neg fresh.1]
      split_ifs
      · exact List.mem_cons_self
      · exact List.mem_cons_of_mem _ (induction fresh.2)

theorem insertEntry_eq_of_mem
    {key : κ} {value : ν} {list : List (κ × ν)}
    (sorted : list.Pairwise fun left right => left.1 < right.1)
    (present : key ∈ list.map Prod.fst) :
    insertEntry key value list = list := by
  induction list with
  | nil => simp at present
  | cons head rest induction =>
      obtain ⟨first, later⟩ := List.pairwise_cons.mp sorted
      rw [insertEntry]
      rw [List.map_cons, List.mem_cons] at present
      rcases present with rfl | tailPresent
      · simp
      · obtain ⟨entry, member, rfl⟩ := List.mem_map.mp tailPresent
        have less := first entry member
        rw [if_neg less.asymm, if_neg less.ne', induction later tailPresent]

theorem insertEntry_sorted
    {key : κ} {value : ν} {list : List (κ × ν)}
    (sorted : list.Pairwise fun left right => left.1 < right.1) :
    (insertEntry key value list).Pairwise
      fun left right => left.1 < right.1 := by
  induction list with
  | nil => simp [insertEntry]
  | cons head rest induction =>
      obtain ⟨first, later⟩ := List.pairwise_cons.mp sorted
      rw [insertEntry]
      split_ifs with below equal
      · refine List.pairwise_cons.mpr ⟨?_, sorted⟩
        intro entry member
        rcases List.mem_cons.mp member with rfl | tailMember
        · exact below
        · exact below.trans (first entry tailMember)
      · exact sorted
      · refine List.pairwise_cons.mpr ⟨?_, induction later⟩
        intro entry member
        rcases mem_insertEntry member with rfl | tailMember
        · exact lt_of_le_of_ne (not_lt.mp below) (Ne.symm equal)
        · exact first entry tailMember

/-- Insert a value unless the key is already present. -/
def emplace (map : SortedMap κ ν) (key : κ) (value : ν) : SortedMap κ ν :=
  ⟨insertEntry key value map.entries, insertEntry_sorted map.sorted⟩

theorem mem_emplace_of_mem
    {map : SortedMap κ ν} {key : κ} {value : ν} {entry : κ × ν}
    (member : entry ∈ map.entries) :
    entry ∈ (map.emplace key value).entries :=
  mem_insertEntry_of_mem member

theorem mem_emplace_iff
    {map : SortedMap κ ν} {key : κ} {value : ν} {entry : κ × ν}
    (fresh : key ∉ map.keys) :
    entry ∈ (map.emplace key value).entries ↔
      entry = (key, value) ∨ entry ∈ map.entries := by
  constructor
  · exact mem_insertEntry
  · rintro (rfl | member)
    · exact insertEntry_self_mem fresh
    · exact mem_insertEntry_of_mem member

/-! ## Assignment -/

/-- Insert into a sorted entry list, replacing an entry that already has the key. -/
def assignEntry (key : κ) (value : ν) : List (κ × ν) → List (κ × ν)
  | [] => [(key, value)]
  | head :: rest =>
      if key < head.1 then (key, value) :: head :: rest
      else if key = head.1 then (key, value) :: rest
      else head :: assignEntry key value rest

theorem mem_assignEntry_iff
    {key : κ} {value : ν} {list : List (κ × ν)}
    (sorted : list.Pairwise fun left right => left.1 < right.1)
    {entry : κ × ν} :
    entry ∈ assignEntry key value list ↔
      entry = (key, value) ∨ entry ∈ list ∧ entry.1 ≠ key := by
  induction list with
  | nil => simp [assignEntry]
  | cons head rest induction =>
      obtain ⟨first, later⟩ := List.pairwise_cons.mp sorted
      rw [assignEntry]
      split_ifs with below equal
      · have others : ∀ other ∈ head :: rest, other.1 ≠ key := by
          intro other member
          rcases List.mem_cons.mp member with rfl | tailMember
          · exact below.ne'
          · exact (below.trans (first other tailMember)).ne'
        rw [List.mem_cons]
        exact or_congr_right
          ⟨fun member => ⟨member, others entry member⟩, And.left⟩
      · have others : ∀ other ∈ rest, other.1 ≠ key := by
          intro other member
          rw [equal]
          exact (first other member).ne'
        rw [List.mem_cons, List.mem_cons]
        refine or_congr_right ⟨fun member => ⟨Or.inr member, others entry member⟩, ?_⟩
        rintro ⟨rfl | member, different⟩
        · exact absurd equal.symm different
        · exact member
      · rw [List.mem_cons, induction later, List.mem_cons, or_and_right]
        constructor
        · rintro (rfl | rfl | kept)
          · exact Or.inr (Or.inl ⟨rfl, Ne.symm equal⟩)
          · exact Or.inl rfl
          · exact Or.inr (Or.inr kept)
        · rintro (rfl | ⟨rfl, -⟩ | kept)
          · exact Or.inr (Or.inl rfl)
          · exact Or.inl rfl
          · exact Or.inr (Or.inr kept)

theorem assignEntry_sorted
    {key : κ} {value : ν} {list : List (κ × ν)}
    (sorted : list.Pairwise fun left right => left.1 < right.1) :
    (assignEntry key value list).Pairwise
      fun left right => left.1 < right.1 := by
  induction list with
  | nil => simp [assignEntry]
  | cons head rest induction =>
      obtain ⟨first, later⟩ := List.pairwise_cons.mp sorted
      rw [assignEntry]
      split_ifs with below equal
      · refine List.pairwise_cons.mpr ⟨?_, sorted⟩
        intro entry member
        rcases List.mem_cons.mp member with rfl | tailMember
        · exact below
        · exact below.trans (first entry tailMember)
      · refine List.pairwise_cons.mpr ⟨?_, later⟩
        intro entry member
        rw [equal]
        exact first entry member
      · refine List.pairwise_cons.mpr ⟨?_, induction later⟩
        intro entry member
        rcases (mem_assignEntry_iff later).mp member with rfl | ⟨tailMember, -⟩
        · exact lt_of_le_of_ne (not_lt.mp below) (Ne.symm equal)
        · exact first entry tailMember

/-- Store a value under a key. -/
def assign (map : SortedMap κ ν) (key : κ) (value : ν) : SortedMap κ ν :=
  ⟨assignEntry key value map.entries, assignEntry_sorted map.sorted⟩

theorem mem_assign_iff
    {map : SortedMap κ ν} {key : κ} {value : ν} {entry : κ × ν} :
    entry ∈ (map.assign key value).entries ↔
      entry = (key, value) ∨ entry ∈ map.entries ∧ entry.1 ≠ key :=
  mem_assignEntry_iff map.sorted

theorem find?_assign (map : SortedMap κ ν) (key other : κ) (value : ν) :
    (map.assign key value).find? other =
      if other = key then some value else map.find? other := by
  apply Option.ext
  intro found
  rw [find?_eq_some_iff, mem_assign_iff, Prod.mk.injEq]
  split_ifs with same
  · simp [same, eq_comm]
  · simp [same, find?_eq_some_iff]

theorem assignEntry_self
    {key : κ} {value : ν} {list : List (κ × ν)}
    (sorted : list.Pairwise fun left right => left.1 < right.1)
    (member : (key, value) ∈ list) :
    assignEntry key value list = list := by
  induction list with
  | nil => exact absurd member List.not_mem_nil
  | cons head rest induction =>
      obtain ⟨first, later⟩ := List.pairwise_cons.mp sorted
      rw [assignEntry]
      rcases List.mem_cons.mp member with rfl | inRest
      · rw [if_neg (lt_irrefl _), if_pos rfl]
      · have after := first _ inRest
        rw [if_neg (lt_asymm after), if_neg (Ne.symm after.ne), induction later inRest]

/-- Storing the value that a key already has changes nothing. -/
theorem assign_self {map : SortedMap κ ν} {key : κ} {value : ν}
    (found : map.find? key = some value) :
    map.assign key value = map :=
  ext (assignEntry_self map.sorted (find?_eq_some_iff.mp found))

/-! ## Removal -/

/-- Remove the entry of a key. -/
def erase (map : SortedMap κ ν) (key : κ) : SortedMap κ ν :=
  ⟨map.entries.filter fun entry => entry.1 ≠ key, map.sorted.filter _⟩

@[simp]
theorem mem_erase_iff
    {map : SortedMap κ ν} {key : κ} {entry : κ × ν} :
    entry ∈ (map.erase key).entries ↔
      entry ∈ map.entries ∧ entry.1 ≠ key := by
  simp [erase]

theorem not_mem_keys_erase {map : SortedMap κ ν} {key : κ} :
    key ∉ (map.erase key).keys := by
  simp

theorem find?_erase (map : SortedMap κ ν) (key other : κ) :
    (map.erase key).find? other = if other = key then none else map.find? other := by
  apply Option.ext
  intro found
  rw [find?_eq_some_iff, mem_erase_iff]
  split_ifs with same
  · simp [same]
  · simp [same, find?_eq_some_iff]

/-! ## Entries up to order -/

theorem nodup_entries (map : SortedMap κ ν) : map.entries.Nodup :=
  map.sorted.imp fun less equal => absurd (congrArg Prod.fst equal) less.ne

/-- Removing a key takes its entry out of the list of entries. -/
theorem perm_cons_erase
    {map : SortedMap κ ν} {key : κ} {value : ν}
    (member : (key, value) ∈ map.entries) :
    map.entries.Perm ((key, value) :: (map.erase key).entries) := by
  have fresh : (key, value) ∉ (map.erase key).entries := by
    simp
  refine (List.perm_ext_iff_of_nodup map.nodup_entries
    (List.nodup_cons.mpr ⟨fresh, (map.erase key).nodup_entries⟩)).mpr ?_
  intro entry
  rw [List.mem_cons, mem_erase_iff]
  constructor
  · intro present
    by_cases same : entry.1 = key
    · obtain ⟨entryKey, entryValue⟩ := entry
      obtain rfl : entryKey = key := same
      rw [value_unique present member]
      exact Or.inl rfl
    · exact Or.inr ⟨present, same⟩
  · rintro (rfl | ⟨present, -⟩)
    · exact member
    · exact present

/-- Storing a value puts its entry in front of those of the other keys. -/
theorem perm_assign (map : SortedMap κ ν) (key : κ) (value : ν) :
    (map.assign key value).entries.Perm
      ((key, value) :: (map.erase key).entries) := by
  have fresh : (key, value) ∉ (map.erase key).entries := by
    simp
  refine (List.perm_ext_iff_of_nodup (map.assign key value).nodup_entries
    (List.nodup_cons.mpr ⟨fresh, (map.erase key).nodup_entries⟩)).mpr ?_
  intro entry
  rw [mem_assign_iff, List.mem_cons, mem_erase_iff]

/-- Inserting a fresh key puts its entry in front of the old ones. -/
theorem perm_emplace
    {map : SortedMap κ ν} {key : κ} (value : ν) (fresh : key ∉ map.keys) :
    (map.emplace key value).entries.Perm ((key, value) :: map.entries) := by
  have absent : (key, value) ∉ map.entries :=
    fun member => fresh (mem_keys_iff.mpr ⟨value, member⟩)
  refine (List.perm_ext_iff_of_nodup (map.emplace key value).nodup_entries
    (List.nodup_cons.mpr ⟨absent, map.nodup_entries⟩)).mpr ?_
  intro entry
  rw [mem_emplace_iff fresh, List.mem_cons]

/-! ## Iteration -/

/-- The position is before the given key; `none` is before every key. -/
def Before : Option κ → κ → Prop
  | none, _ => True
  | some position, key => position < key

instance (position : Option κ) (key : κ) : Decidable (Before position key) :=
  match position with
  | none => inferInstanceAs (Decidable True)
  | some _ => inferInstanceAs (Decidable (_ < _))

/-- The first entry after a position. -/
def next? (map : SortedMap κ ν) (position : Option κ) : Option (κ × ν) :=
  map.entries.find? fun entry => Before position entry.1

/-- In a sorted list the entry that a search finds is the least match. -/
theorem find?_least
    {list : List (κ × ν)} {test : κ × ν → Bool} {found : κ × ν}
    (sorted : list.Pairwise fun left right => left.1 < right.1)
    (located : list.find? test = some found)
    {other : κ × ν}
    (member : other ∈ list)
    (passes : test other) :
    found.1 ≤ other.1 := by
  obtain ⟨-, prior, suffix, shape, skipped⟩ :=
    List.find?_eq_some_iff_append.mp located
  rw [shape] at sorted member
  rcases List.mem_append.mp member with before | rest
  · have failed := skipped other before
    simp [passes] at failed
  · rcases List.mem_cons.mp rest with rfl | tailMember
    · exact le_rfl
    · have tailSorted := (List.pairwise_append.mp sorted).2.1
      exact ((List.pairwise_cons.mp tailSorted).1 other tailMember).le

theorem next?_eq_some_iff
    {map : SortedMap κ ν} {position : Option κ} {entry : κ × ν} :
    map.next? position = some entry ↔
      entry ∈ map.entries ∧ Before position entry.1 ∧
        ∀ other ∈ map.entries, Before position other.1 →
          entry.1 ≤ other.1 := by
  constructor
  · intro located
    have passes := List.find?_some located
    refine ⟨List.mem_of_find?_eq_some located, by simpa using passes, ?_⟩
    intro other member after
    exact find?_least map.sorted located member (by simpa using after)
  · rintro ⟨member, after, least⟩
    cases located : map.next? position with
    | none =>
        have absent := List.find?_eq_none.mp located entry member
        simp [after] at absent
    | some found =>
        have foundMember : found ∈ map.entries :=
          List.mem_of_find?_eq_some located
        have foundAfter : Before position found.1 := by
          simpa using List.find?_some located
        have keyEqual : found.1 = entry.1 :=
          le_antisymm
            (find?_least map.sorted located member (by simpa using after))
            (least found foundMember foundAfter)
        obtain ⟨foundKey, foundValue⟩ := found
        obtain ⟨entryKey, entryValue⟩ := entry
        cases keyEqual
        rw [value_unique foundMember member]

theorem next?_eq_none_iff
    {map : SortedMap κ ν} {position : Option κ} :
    map.next? position = none ↔
      ∀ entry ∈ map.entries, ¬ Before position entry.1 := by
  simp [next?, List.find?_eq_none]

/-- The entries after a position. -/
def after (map : SortedMap κ ν) (position : Option κ) : List (κ × ν) :=
  map.entries.filter fun entry => Before position entry.1

@[simp]
theorem after_none (map : SortedMap κ ν) : map.after none = map.entries :=
  List.filter_eq_self.mpr fun _ _ => decide_eq_true trivial

theorem mem_after {map : SortedMap κ ν} {position : Option κ} {entry : κ × ν} :
    entry ∈ map.after position ↔ entry ∈ map.entries ∧ Before position entry.1 := by
  simp [after]

theorem Before.of_lt {position : Option κ} {left right : κ}
    (passed : Before position left) (ordered : left < right) : Before position right := by
  cases position with
  | none => trivial
  | some position => exact lt_trans passed ordered

theorem next?_eq_head? (map : SortedMap κ ν) (position : Option κ) :
    map.next? position = (map.after position).head? :=
  List.head?_filter.symm

theorem after_eq_nil_of_next?
    {map : SortedMap κ ν} {position : Option κ} (ended : map.next? position = none) :
    map.after position = [] := by
  rw [next?_eq_head?] at ended
  exact List.head?_eq_none_iff.mp ended

/-- The next entry is followed by the entries after its key. -/
theorem after_eq_cons_of_next?
    {map : SortedMap κ ν} {position : Option κ} {entry : κ × ν}
    (found : map.next? position = some entry) :
    map.after position = entry :: map.after (some entry.1) := by
  have located : entry ∈ map.entries ∧ Before position entry.1 :=
    let facts := next?_eq_some_iff.mp found
    ⟨facts.1, facts.2.1⟩
  rw [next?_eq_head?] at found
  obtain ⟨rest, shape⟩ := List.head?_eq_some_iff.mp found
  have sorted : (entry :: rest).Pairwise fun left right => left.1 < right.1 :=
    shape ▸ map.sorted.filter _
  have refined :
      map.after (some entry.1) =
        (map.after position).filter fun other => Before (some entry.1) other.1 := by
    rw [after, after, List.filter_filter]
    refine List.filter_congr fun other _ => ?_
    have implied : Before (some entry.1) other.1 → Before position other.1 :=
      located.2.of_lt
    by_cases behind : Before (some entry.1) other.1
    · simp [behind, implied behind]
    · simp [behind]
  have kept :
      rest.filter (fun other => Before (some entry.1) other.1) = rest :=
    List.filter_eq_self.mpr fun other member =>
      decide_eq_true ((List.pairwise_cons.mp sorted).1 other member)
  rw [refined, shape, List.filter_cons_of_neg (by simp [Before]), kept]

/-- An insertion is met by an iteration when it lies after its position. -/
theorem after_emplace
    {map : SortedMap κ ν} {key : κ} (value : ν) (fresh : key ∉ map.keys)
    (position : Option κ) :
    (map.emplace key value).after position =
      if Before position key then insertEntry key value (map.after position)
      else map.after position := by
  obtain ⟨entries, sorted⟩ := map
  change key ∉ entries.map Prod.fst at fresh
  change (insertEntry key value entries).filter _ =
    if Before position key then insertEntry key value (entries.filter _)
    else entries.filter _
  induction entries with
  | nil =>
      by_cases passed : Before position key <;> simp [insertEntry, passed]
  | cons head rest ih =>
      have ordered := List.pairwise_cons.mp sorted
      have other : key ≠ head.1 := fun equal => fresh (equal ▸ List.mem_cons_self)
      have later := ih ordered.2 fun member => fresh (List.mem_cons_of_mem _ member)
      rcases lt_or_gt_of_ne other with before | behind
      · rw [insertEntry, if_pos before]
        by_cases passed : Before position key
        · have passed_head := passed.of_lt before
          simp [passed, passed_head, insertEntry, before]
        · simp [passed]
      · rw [insertEntry, if_neg (not_lt_of_gt behind), if_neg other]
        by_cases passed : Before position head.1
        · have passed_key := passed.of_lt behind
          rw [if_pos passed_key] at later
          simp [passed, passed_key, insertEntry, not_lt_of_gt behind, other, later]
        · simp [passed, later]

theorem length_insertEntry_le (key : κ) (value : ν) (list : List (κ × ν)) :
    (insertEntry key value list).length ≤ list.length + 1 := by
  induction list with
  | nil => exact le_refl _
  | cons head rest ih =>
      rw [insertEntry]
      split_ifs
      · exact le_refl _
      · exact Nat.le_succ _
      · exact Nat.succ_le_succ ih

theorem sublist_emplace (map : SortedMap κ ν) (key : κ) (value : ν) :
    map.entries.Sublist (map.emplace key value).entries := by
  change map.entries.Sublist (insertEntry key value map.entries)
  induction map.entries with
  | nil => exact List.nil_sublist _
  | cons head rest ih =>
      rw [insertEntry]
      split_ifs
      · exact List.sublist_cons_self _ _
      · exact List.Sublist.refl _
      · exact ih.cons_cons head

/-- Give the entry of one key another key. -/
def rename (key renamed : κ) (entry : κ × ν) : κ × ν :=
  if entry.1 = key then (renamed, entry.2) else entry

theorem rename_of_ne {key renamed : κ} {entry : κ × ν} (other : entry.1 ≠ key) :
    rename key renamed entry = entry :=
  if_neg other

@[simp]
theorem rename_self (key : κ) (entry : κ × ν) : rename key key entry = entry := by
  rw [rename]
  split_ifs with equal
  · exact Prod.ext equal.symm rfl
  · rfl

/-- Moving an entry to a key with the same neighbours renames it in place. -/
theorem entries_emplace_erase
    {map : SortedMap κ ν} {key renamed : κ} {value : ν}
    (member : (key, value) ∈ map.entries)
    (below : ∀ entry ∈ map.entries, entry.1 < key → entry.1 < renamed)
    (above : ∀ entry ∈ map.entries, key < entry.1 → renamed < entry.1) :
    ((map.erase key).emplace renamed value).entries =
      map.entries.map (rename key renamed) := by
  obtain ⟨entries, sorted⟩ := map
  change insertEntry renamed value (entries.filter _) = entries.map _
  change (key, value) ∈ entries at member
  change ∀ entry ∈ entries, _ at below above
  induction entries with
  | nil => cases member
  | cons head rest ih =>
      have ordered := List.pairwise_cons.mp sorted
      by_cases here : head.1 = key
      · have value_eq : head.2 = value := by
          rcases List.mem_cons.mp member with equal | found
          · rw [← equal]
          · exact absurd (ordered.1 _ found) (here ▸ lt_irrefl _)
        have later : ∀ entry ∈ rest, key < entry.1 := fun entry found =>
          here ▸ ordered.1 entry found
        have kept : rest.filter (fun entry => entry.1 ≠ key) = rest := by
          refine List.filter_eq_self.mpr fun entry found => ?_
          exact decide_eq_true (later entry found).ne'
        have unchanged : rest.map (rename key renamed) = rest := by
          refine (List.map_congr_left fun entry found => ?_).trans (List.map_id rest)
          exact rename_of_ne (later entry found).ne'
        rw [List.filter_cons_of_neg (by simpa using here), kept, List.map_cons, rename,
          if_pos here, value_eq, unchanged]
        cases rest with
        | nil => rfl
        | cons next rest =>
            exact if_pos (above next (List.mem_cons_of_mem _ List.mem_cons_self)
              (later next List.mem_cons_self))
      · have found : (key, value) ∈ rest := by
          rcases List.mem_cons.mp member with equal | found
          · exact absurd (congrArg Prod.fst equal).symm here
          · exact found
        have before : head.1 < renamed :=
          below head List.mem_cons_self (ordered.1 _ found)
        rw [List.filter_cons_of_pos (by simpa using here), insertEntry,
          if_neg (not_lt_of_gt before), if_neg before.ne', List.map_cons, rename_of_ne here,
          ih ordered.2 found (fun entry inside => below entry (List.mem_cons_of_mem _ inside))
            fun entry inside => above entry (List.mem_cons_of_mem _ inside)]

end SortedMap
