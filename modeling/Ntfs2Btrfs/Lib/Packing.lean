import Mathlib.Data.List.Sort
import Mathlib.Tactic

/-!
# Packing a sequence into bins of one size

A sequence of sizes is cut into bins from the left: an item that still fits
joins the open bin, any other item closes it and opens the next one.  The
module compares such packings.

`pack` packs a fixed sequence.  `Scan` packs a keyed sequence that changes
under way: every bin that is closed may insert an item into the sequence, and
it is packed too when its place is still ahead.  `Scan.mono` says that of two
scans with the same insertions the one over the larger sequence stays ahead.
-/

universe u

namespace Packing

/-! ## Packing a fixed sequence -/

/-- The number of closed bins and the space used in the open one. -/
structure Fill where
  closed : Nat
  used : Nat
deriving DecidableEq, Repr

namespace Fill

/-- The filling stages in the order in which a packing passes them. -/
instance : LE Fill where
  le left right :=
    left.closed < right.closed ∨
      left.closed = right.closed ∧ left.used ≤ right.used

theorem le_iff {left right : Fill} :
    left ≤ right ↔
      left.closed < right.closed ∨
        left.closed = right.closed ∧ left.used ≤ right.used :=
  Iff.rfl

instance : Preorder Fill where
  le_refl fill := Or.inr ⟨rfl, Nat.le_refl _⟩
  le_trans first second third left right := by
    rw [le_iff] at left right ⊢
    omega

theorem closed_le {left right : Fill} (below : left ≤ right) :
    left.closed ≤ right.closed := by
  rw [le_iff] at below
  omega

/-- Whether an item still fits into the open bin. -/
def Fits (capacity : Nat) (fill : Fill) (size : Nat) : Prop :=
  fill.used + size ≤ capacity

instance (capacity : Nat) (fill : Fill) (size : Nat) :
    Decidable (fill.Fits capacity size) :=
  inferInstanceAs (Decidable (_ ≤ _))

/-- Put an item into the open bin, or into a new one when it does not fit. -/
def put (capacity : Nat) (fill : Fill) (size : Nat) : Fill :=
  if fill.Fits capacity size then ⟨fill.closed, fill.used + size⟩
  else ⟨fill.closed + 1, size⟩

theorem put_of_fits
    {capacity size : Nat} {fill : Fill} (fits : fill.Fits capacity size) :
    fill.put capacity size = ⟨fill.closed, fill.used + size⟩ :=
  if_pos fits

theorem put_of_not_fits
    {capacity size : Nat} {fill : Fill} (full : ¬ fill.Fits capacity size) :
    fill.put capacity size = ⟨fill.closed + 1, size⟩ :=
  if_neg full

theorem le_put (capacity : Nat) (fill : Fill) (size : Nat) :
    fill ≤ fill.put capacity size := by
  by_cases fits : fill.Fits capacity size
  · rw [put_of_fits fits]
    exact Or.inr ⟨rfl, Nat.le_add_right _ _⟩
  · rw [put_of_not_fits fits]
    exact Or.inl (Nat.lt_succ_self _)

theorem put_mono
    {left right : Fill} (below : left ≤ right) (capacity size : Nat) :
    left.put capacity size ≤ right.put capacity size := by
  rw [le_iff] at below ⊢
  by_cases leftFits : left.Fits capacity size <;>
    by_cases rightFits : right.Fits capacity size
  · rw [put_of_fits leftFits, put_of_fits rightFits]
    simp only
    omega
  · rw [put_of_fits leftFits, put_of_not_fits rightFits]
    simp only
    omega
  · rw [put_of_not_fits leftFits, put_of_fits rightFits]
    simp only [Fits] at leftFits rightFits ⊢
    omega
  · rw [put_of_not_fits leftFits, put_of_not_fits rightFits]
    simp only
    omega

end Fill

/-- Pack a sequence of sizes, starting from a partly filled bin. -/
def pack (capacity : Nat) (fill : Fill) (sizes : List Nat) : Fill :=
  sizes.foldl (Fill.put capacity) fill

@[simp]
theorem pack_nil (capacity : Nat) (fill : Fill) :
    pack capacity fill [] = fill :=
  rfl

@[simp]
theorem pack_cons (capacity : Nat) (fill : Fill) (size : Nat) (rest : List Nat) :
    pack capacity fill (size :: rest) =
      pack capacity (fill.put capacity size) rest :=
  rfl

theorem le_pack (capacity : Nat) (fill : Fill) (sizes : List Nat) :
    fill ≤ pack capacity fill sizes := by
  induction sizes generalizing fill with
  | nil => exact le_refl fill
  | cons size rest ih => exact le_trans (Fill.le_put capacity fill size) (ih _)

/-- Packing more items from a later stage ends at a later stage. -/
theorem pack_mono
    (capacity : Nat) {left right : List Nat}
    (shorter : left.Sublist right)
    {fill ahead : Fill} (below : fill ≤ ahead) :
    pack capacity fill left ≤ pack capacity ahead right := by
  induction shorter generalizing fill ahead with
  | slnil => exact below
  | cons size _ ih => exact ih (le_trans below (Fill.le_put capacity ahead size))
  | cons_cons size _ ih => exact ih (Fill.put_mono below capacity size)

/-- The number of bins that a sequence takes; an empty one takes one bin. -/
def bins (capacity : Nat) (sizes : List Nat) : Nat :=
  (pack capacity ⟨0, 0⟩ sizes).closed + 1

@[simp]
theorem pack_append (capacity : Nat) (fill : Fill) (left right : List Nat) :
    pack capacity fill (left ++ right) = pack capacity (pack capacity fill left) right :=
  List.foldl_append

/-! ## The best cut -/

/-- The sequence can be cut into so many parts of which none exceeds the capacity. -/
def CanCut (capacity : Nat) (sizes : List Nat) (count : Nat) : Prop :=
  ∃ parts : List (List Nat),
    parts.flatten = sizes ∧ parts.length ≤ count ∧ ∀ part ∈ parts, part.sum ≤ capacity

/-- A part that fits as a whole is put into one bin. -/
theorem pack_part
    {capacity : Nat} {part : List Nat} {closed used : Nat}
    (fits : used + part.sum ≤ capacity) :
    pack capacity ⟨closed, used⟩ part = ⟨closed, used + part.sum⟩ := by
  induction part generalizing used with
  | nil => rfl
  | cons size rest ih =>
      rw [List.sum_cons] at fits ⊢
      have room : Fill.Fits capacity ⟨closed, used⟩ size := by
        rw [Fill.Fits]
        simp only
        omega
      rw [pack_cons, Fill.put_of_fits room, ih (by simp only; omega), Nat.add_assoc]

/-- Packing from the left is at no time behind a given cut. -/
theorem pack_parts_le
    {capacity : Nat} {parts : List (List Nat)}
    (small : ∀ part ∈ parts, part.sum ≤ capacity) (closed used : Nat) :
    (pack capacity ⟨closed, used⟩ parts.flatten).closed ≤ closed + parts.length := by
  induction parts generalizing closed used with
  | nil => exact Nat.le_refl _
  | cons part rest ih =>
      have next : (⟨closed, used⟩ : Fill) ≤ ⟨closed + 1, 0⟩ := Or.inl (Nat.lt_succ_self _)
      have whole : 0 + part.sum ≤ capacity := by
        rw [Nat.zero_add]
        exact small part List.mem_cons_self
      have stages := pack_mono capacity (List.Sublist.refl (part ++ rest.flatten)) next
      rw [pack_append capacity ⟨closed + 1, 0⟩, pack_part whole] at stages
      rw [List.flatten_cons, List.length_cons]
      refine (Fill.closed_le stages).trans ?_
      refine (ih (fun other member => small other (List.mem_cons_of_mem part member)) _ _).trans ?_
      omega

/-- Packing from the left is itself a cut. -/
theorem exists_parts
    {capacity : Nat} {sizes : List Nat} (small : ∀ size ∈ sizes, size ≤ capacity)
    (opened : List Nat) (room : opened.sum ≤ capacity) (closed : Nat) :
    ∃ parts : List (List Nat),
      parts.flatten = opened ++ sizes ∧
        closed + parts.length = (pack capacity ⟨closed, opened.sum⟩ sizes).closed + 1 ∧
        ∀ part ∈ parts, part.sum ≤ capacity := by
  induction sizes generalizing opened closed with
  | nil => exact ⟨[opened], by simp, rfl, by simpa using room⟩
  | cons size rest ih =>
      have rest_small : ∀ other ∈ rest, other ≤ capacity := fun other member =>
        small other (List.mem_cons_of_mem size member)
      by_cases fits : Fill.Fits capacity ⟨closed, opened.sum⟩ size
      · have sum_eq : (opened ++ [size]).sum = opened.sum + size := by simp
        rcases ih rest_small (opened ++ [size]) (sum_eq ▸ fits) closed with
          ⟨parts, flat, count, fit⟩
        refine ⟨parts, by simpa using flat, ?_, fit⟩
        rw [pack_cons, Fill.put_of_fits fits, count, sum_eq]
      · rcases ih rest_small [size]
          (by simpa using small size List.mem_cons_self) (closed + 1) with
          ⟨parts, flat, count, fit⟩
        refine ⟨opened :: parts, by simp [flat], ?_, ?_⟩
        · rw [List.sum_singleton] at count
          rw [pack_cons, Fill.put_of_not_fits fits, ← count, List.length_cons]
          omega
        · intro part member
          rcases List.mem_cons.mp member with rfl | inside
          · exact room
          · exact fit part inside

/-- No cut has fewer parts than packing from the left has bins. -/
theorem canCut_iff {capacity : Nat} {sizes : List Nat} {count : Nat} :
    CanCut capacity sizes count ↔
      (∀ size ∈ sizes, size ≤ capacity) ∧ (sizes = [] ∨ bins capacity sizes ≤ count) := by
  constructor
  · rintro ⟨parts, rfl, length, small⟩
    constructor
    · intro size member
      rcases List.mem_flatten.mp member with ⟨part, inside, here⟩
      exact (List.le_sum_of_mem here).trans (small part inside)
    · cases parts with
      | nil => exact Or.inl rfl
      | cons part rest =>
          right
          have whole : 0 + part.sum ≤ capacity := by
            rw [Nat.zero_add]
            exact small part List.mem_cons_self
          have rest_small : ∀ other ∈ rest, other.sum ≤ capacity := fun other member =>
            small other (List.mem_cons_of_mem part member)
          have behind := pack_parts_le rest_small 0 (0 + part.sum)
          rw [bins, List.flatten_cons, pack_append, pack_part whole]
          rw [List.length_cons] at length
          omega
  · rintro ⟨small, rfl | few⟩
    · exact ⟨[], rfl, Nat.zero_le _, by simp⟩
    · rcases exists_parts small [] (Nat.zero_le _) 0 with ⟨parts, flat, length, fit⟩
      refine ⟨parts, flat, ?_, fit⟩
      rw [bins] at few
      rw [List.sum_nil] at length
      omega

/-! ## Levels of pointers -/

/--
The number of nodes on each level of a tree with the given number of leaves:
a level has pointers of one size to all nodes of the level below, and a level
with one node is the last.
-/
def nodesAt (capacity size : Nat) : Nat → Nat → Nat
  | nodes, 0 => nodes
  | nodes, level + 1 =>
      if nodes ≤ 1 then 0
      else nodesAt capacity size (bins capacity (List.replicate nodes size)) level

@[simp]
theorem nodesAt_zero (capacity size nodes : Nat) : nodesAt capacity size nodes 0 = nodes :=
  rfl

theorem nodesAt_succ_of_le_one
    {capacity size nodes : Nat} (single : nodes ≤ 1) (level : Nat) :
    nodesAt capacity size nodes (level + 1) = 0 :=
  if_pos single

theorem nodesAt_succ_of_one_lt
    {capacity size nodes : Nat} (several : 1 < nodes) (level : Nat) :
    nodesAt capacity size nodes (level + 1) =
      nodesAt capacity size (bins capacity (List.replicate nodes size)) level :=
  if_neg (not_le.mpr several)

/-- More leaves give at least as many nodes on every level. -/
theorem nodesAt_mono
    {capacity size fewer nodes : Nat} (ordered : fewer ≤ nodes) (level : Nat) :
    nodesAt capacity size fewer level ≤ nodesAt capacity size nodes level := by
  induction level generalizing fewer nodes with
  | zero => exact ordered
  | succ level ih =>
      by_cases single : fewer ≤ 1
      · rw [nodesAt_succ_of_le_one single]
        exact Nat.zero_le _
      · have several : 1 < fewer := not_le.mp single
        rw [nodesAt_succ_of_one_lt several, nodesAt_succ_of_one_lt (several.trans_le ordered)]
        refine ih (Nat.add_le_add_right (Fill.closed_le ?_) 1)
        exact pack_mono _ ((List.replicate_sublist_replicate size).mpr ordered) (le_refl _)

/-! ## Inserting into a keyed sequence -/

section Keyed

variable {κ : Type u} [LinearOrder κ]

/-- The keys of a sequence do not decrease. -/
def Sorted (list : List (κ × Nat)) : Prop :=
  list.Pairwise fun left right => left.1 ≤ right.1

/-- Insert an item before the items whose keys are not smaller. -/
def insertItem (item : κ × Nat) (list : List (κ × Nat)) : List (κ × Nat) :=
  list.orderedInsert (fun left right => left.1 ≤ right.1) item

/-- Insert several items, the last one first. -/
def insertAll (items list : List (κ × Nat)) : List (κ × Nat) :=
  items.foldr insertItem list

instance totalKeyOrder : Std.Total fun left right : κ × Nat => left.1 ≤ right.1 where
  total left right := le_total left.1 right.1

instance transKeyOrder : IsTrans (κ × Nat) fun left right => left.1 ≤ right.1 where
  trans _ _ _ left right := le_trans left right

theorem insertItem_cons_of_lt
    {item head : κ × Nat} (later : head.1 < item.1) (rest : List (κ × Nat)) :
    insertItem item (head :: rest) = head :: insertItem item rest :=
  List.orderedInsert_of_not_le _ rest (not_le.mpr later)

theorem mem_insertItem {item other : κ × Nat} {list : List (κ × Nat)} :
    other ∈ insertItem item list ↔ other = item ∨ other ∈ list :=
  List.mem_orderedInsert _

theorem Sorted.insertItem
    {list : List (κ × Nat)} (sorted : Sorted list) (item : κ × Nat) :
    Sorted (insertItem item list) :=
  List.Pairwise.orderedInsert item list sorted

theorem Sorted.insertItem_sublist
    {left right : List (κ × Nat)} (sorted : Sorted right)
    (inside : left.Sublist right) (item : κ × Nat) :
    (Packing.insertItem item left).Sublist (Packing.insertItem item right) :=
  List.Sublist.orderedInsert_sublist item inside sorted

theorem sublist_insertItem (item : κ × Nat) (list : List (κ × Nat)) :
    list.Sublist (insertItem item list) :=
  List.sublist_orderedInsert item list

@[simp]
theorem insertAll_nil (list : List (κ × Nat)) :
    insertAll [] list = list :=
  rfl

@[simp]
theorem insertAll_cons (item : κ × Nat) (items list : List (κ × Nat)) :
    insertAll (item :: items) list = insertItem item (insertAll items list) :=
  rfl

@[simp]
theorem insertAll_append (later earlier list : List (κ × Nat)) :
    insertAll (later ++ earlier) list = insertAll later (insertAll earlier list) :=
  List.foldr_append

theorem mem_insertAll {items list : List (κ × Nat)} {other : κ × Nat} :
    other ∈ insertAll items list ↔ other ∈ items ∨ other ∈ list := by
  induction items with
  | nil => simp
  | cons item items ih => rw [insertAll_cons, mem_insertItem, ih, List.mem_cons, or_assoc]

theorem Sorted.insertAll
    {list : List (κ × Nat)} (sorted : Sorted list) (items : List (κ × Nat)) :
    Sorted (insertAll items list) := by
  induction items with
  | nil => exact sorted
  | cons item items ih => exact ih.insertItem item

/-- Fewer insertions into a part of a sequence give a part of the result. -/
theorem Sorted.insertAll_sublist
    {fewer items left right : List (κ × Nat)} (sorted : Sorted right)
    (chosen : fewer.Sublist items) (inside : left.Sublist right) :
    (Packing.insertAll fewer left).Sublist (Packing.insertAll items right) := by
  induction chosen with
  | slnil => exact inside
  | cons item _ ih => exact ih.trans (sublist_insertItem item _)
  | cons_cons item _ ih => exact (sorted.insertAll _).insertItem_sublist ih item

/-- Items behind the head of a sequence leave it where it is. -/
theorem insertAll_cons_of_lt
    {items : List (κ × Nat)} {head : κ × Nat}
    (later : ∀ item ∈ items, head.1 < item.1) (rest : List (κ × Nat)) :
    insertAll items (head :: rest) = head :: insertAll items rest := by
  induction items with
  | nil => rfl
  | cons item items ih =>
      rw [insertAll_cons, insertAll_cons,
        ih fun other member => later other (List.mem_cons_of_mem item member)]
      exact insertItem_cons_of_lt (later item List.mem_cons_self) _

/-- A sequence of distinct keys is a part of any sequence that has its items. -/
theorem sublist_of_subset
    {left right : List (κ × Nat)}
    (distinct : left.Pairwise fun first second => first.1 < second.1)
    (sorted : Sorted right) (subset : left ⊆ right) :
    left.Sublist right := by
  induction right generalizing left with
  | nil => exact List.subset_nil.mp subset ▸ List.Sublist.refl _
  | cons head rest ih =>
      have ordered := List.pairwise_cons.mp sorted
      cases left with
      | nil => exact List.nil_sublist _
      | cons item behind =>
          have later := List.pairwise_cons.mp distinct
          have reached : head.1 ≤ item.1 := by
            rcases List.mem_cons.mp (subset List.mem_cons_self) with rfl | inside
            · exact le_refl _
            · exact ordered.1 item inside
          have behind_subset : behind ⊆ rest := by
            intro other member
            rcases List.mem_cons.mp (subset (List.mem_cons_of_mem item member)) with rfl | inside
            · exact absurd (later.1 _ member) (not_lt_of_ge reached)
            · exact inside
          by_cases same : item = head
          · rw [same]
            exact (ih later.2 ordered.2 behind_subset).cons_cons head
          · refine (ih distinct ordered.2 (List.cons_subset.mpr ⟨?_, behind_subset⟩)).cons head
            exact (List.mem_cons.mp (subset List.mem_cons_self)).resolve_left same

/-! ## Scanning a sequence that grows -/

variable (capacity weight : Nat) (insertion : Nat → Option κ)

/-- What is left to scan after a bin has inserted its item, if it has one. -/
def insertLater (key : Option κ) (position : κ) (rest : List (κ × Nat)) :
    List (κ × Nat) :=
  match key with
  | none => rest
  | some key => if position < key then insertItem (key, weight) rest else rest

/--
Packing a keyed sequence from its front.  The bin with number `n` inserts the
key `insertion n` when it is closed; behind the item being scanned it is met
again.
-/
inductive Scan : List (κ × Nat) → Fill → Fill → Prop
  | done (fill : Fill) : Scan [] fill fill
  | fits {item : κ × Nat} {rest : List (κ × Nat)} {fill final : Fill}
      (room : fill.Fits capacity item.2)
      (later : Scan rest ⟨fill.closed, fill.used + item.2⟩ final) :
      Scan (item :: rest) fill final
  | closes {item : κ × Nat} {rest : List (κ × Nat)} {fill final : Fill}
      (full : ¬ fill.Fits capacity item.2)
      (later : Scan (insertLater weight (insertion fill.closed) item.1 rest)
        ⟨fill.closed + 1, item.2⟩ final) :
      Scan (item :: rest) fill final

/-- The items inserted by a range of bins, the last one first. -/
def inserted (first stop : Nat) : List (κ × Nat) :=
  ((List.range' first (stop - first)).filterMap insertion).reverse.map
    fun key => (key, weight)

omit [LinearOrder κ] in
theorem inserted_self (bin : Nat) : inserted weight insertion bin bin = [] := by
  simp [inserted]

omit [LinearOrder κ] in
theorem inserted_succ {first stop : Nat} (ordered : first ≤ stop) :
    inserted weight insertion first (stop + 1) =
      ((insertion stop).map fun key => (key, weight)).toList ++
        inserted weight insertion first stop := by
  have range :
      List.range' first (stop + 1 - first) =
        List.range' first (stop - first) ++ [stop] := by
    rw [Nat.succ_sub ordered, List.range'_concat, Nat.one_mul,
      Nat.add_sub_cancel' ordered]
  rw [inserted, range, List.filterMap_append]
  cases found : insertion stop <;> simp [found, inserted]

omit [LinearOrder κ] in
theorem inserted_pop {first stop : Nat} (below : first < stop) :
    inserted weight insertion first stop =
      inserted weight insertion (first + 1) stop ++
        ((insertion first).map fun key => (key, weight)).toList := by
  have range :
      List.range' first (stop - first) =
        first :: List.range' (first + 1) (stop - (first + 1)) := by
    rw [show stop - first = stop - (first + 1) + 1 by omega, List.range'_succ]
  rw [inserted, range, List.filterMap_cons]
  cases found : insertion first <;> simp [inserted]

variable {capacity weight insertion}

theorem Scan.le
    {list : List (κ × Nat)} {fill final : Fill}
    (scan : Scan capacity weight insertion list fill final) :
    fill ≤ final := by
  induction scan with
  | done fill => exact le_refl fill
  | fits room _ ih =>
      rw [← Fill.put_of_fits room] at ih
      exact le_trans (Fill.le_put _ _ _) ih
  | closes full _ ih =>
      rw [← Fill.put_of_not_fits full] at ih
      exact le_trans (Fill.le_put _ _ _) ih

theorem Sorted.insertLater
    {list : List (κ × Nat)} (sorted : Sorted list) (key : Option κ) (position : κ) :
    Sorted (insertLater weight key position list) := by
  cases key with
  | none => exact sorted
  | some key =>
      rw [Packing.insertLater]
      split_ifs
      · exact sorted.insertItem _
      · exact sorted

/-- What is left to scan has the inserted item if that lies behind. -/
theorem insertLater_eq (key : Option κ) (position : κ) (rest : List (κ × Nat)) :
    insertLater weight key position rest =
      insertAll ((key.map fun key => (key, weight)).toList.filter
        fun item => position < item.1) rest := by
  cases key with
  | none => rfl
  | some key => by_cases later : position < key <;> simp [insertLater, later]

/--
A scan packs the sequence with some of the inserted items in their places.
-/
theorem Scan.packs
    {list : List (κ × Nat)} {fill final : Fill}
    (scan : Scan capacity weight insertion list fill final)
    (sorted : Sorted list) :
    ∃ items,
      items.Sublist (inserted weight insertion fill.closed final.closed) ∧
        (∀ position, (∀ item ∈ list, position ≤ item.1) →
          ∀ item ∈ items, position < item.1) ∧
        pack capacity fill ((insertAll items list).map Prod.snd) = final := by
  induction scan with
  | done fill => exact ⟨[], List.nil_sublist _, by simp, rfl⟩
  | @fits item rest fill final room later ih =>
      have ordered := List.pairwise_cons.mp sorted
      rcases ih ordered.2 with ⟨items, chosen, after, packed⟩
      refine ⟨items, chosen, ?_, ?_⟩
      · intro position below
        exact after position fun other member =>
          below other (List.mem_cons_of_mem item member)
      · rw [insertAll_cons_of_lt (after item.1 ordered.1), List.map_cons, pack_cons,
          Fill.put_of_fits room]
        exact packed
  | @closes item rest fill final full later ih =>
      have ordered := List.pairwise_cons.mp sorted
      rcases ih (Sorted.insertLater ordered.2 _ _) with ⟨items, chosen, after, packed⟩
      rw [insertLater_eq] at packed after
      obtain ⟨first, first_eq⟩ :
          ∃ first, first =
            ((insertion fill.closed).map fun key => (key, weight)).toList.filter
              fun other => item.1 < other.1 := ⟨_, rfl⟩
      rw [← first_eq] at packed after
      have behind : ∀ other ∈ first, item.1 < other.1 := by
        intro other member
        rw [first_eq] at member
        exact of_decide_eq_true (List.mem_filter.mp member).2
      have atLeast : ∀ other ∈ insertAll first rest, item.1 ≤ other.1 := by
        intro other member
        rcases mem_insertAll.mp member with member | member
        · exact le_of_lt (behind other member)
        · exact ordered.1 other member
      have later_items : ∀ other ∈ items ++ first, item.1 < other.1 := by
        intro other member
        rcases List.mem_append.mp member with member | member
        · exact after item.1 atLeast other member
        · exact behind other member
      refine ⟨items ++ first, ?_, ?_, ?_⟩
      · have below : fill.closed < final.closed :=
          Fill.closed_le later.le
        rw [inserted_pop weight insertion below]
        exact chosen.append (first_eq ▸ List.filter_sublist)
      · intro position bound other member
        exact lt_of_le_of_lt (bound item List.mem_cons_self) (later_items other member)
      · rw [insertAll_cons_of_lt later_items, List.map_cons, pack_cons,
          Fill.put_of_not_fits full, insertAll_append]
        exact packed

/-! ## Two scans with the same insertions -/

variable (weight insertion)

/-- The insertions of a range of bins that lie behind a position. -/
def pending (position : WithBot κ) (first stop : Nat) : List (κ × Nat) :=
  (inserted weight insertion first stop).filter fun item => position < item.1

variable {weight insertion}

theorem mem_pending
    {position : WithBot κ} {first stop : Nat} {item : κ × Nat}
    (member : item ∈ pending weight insertion position first stop) :
    position < item.1 ∧ item.2 = weight := by
  rcases List.mem_filter.mp member with ⟨source, later⟩
  rcases List.mem_map.mp source with ⟨key, _, rfl⟩
  exact ⟨of_decide_eq_true later, rfl⟩

theorem pending_sublist
    {early late : WithBot κ} (ordered : early ≤ late) (weight : Nat)
    (insertion : Nat → Option κ) (first stop : Nat) :
    (pending weight insertion late first stop).Sublist
      (pending weight insertion early first stop) := by
  refine List.monotone_filter_right _ fun item later => ?_
  exact decide_eq_true (lt_of_le_of_lt ordered (of_decide_eq_true later))

/-- The earliest of several insertions can be taken out at the front. -/
theorem cons_insertAll_sublist
    {fewer items list : List (κ × Nat)} {item : κ × Nat}
    (sorted : Sorted list)
    (chosen : fewer.Sublist items)
    (member : item ∈ items)
    (dropped : item ∉ fewer)
    (least : ∀ other ∈ insertAll items list, item.1 ≤ other.1)
    (same : ∀ other ∈ items, other.1 = item.1 → other = item) :
    (item :: insertAll fewer list).Sublist (insertAll items list) := by
  induction chosen with
  | slnil => exact absurd member List.not_mem_nil
  | @cons fewer items head chosen ih =>
      by_cases here : head = item
      · rw [here, insertAll_cons]
        refine List.cons_sublist_orderedInsert
          (sorted.insertAll_sublist chosen (List.Sublist.refl list)) fun other found => ?_
        refine least other (List.Sublist.subset ?_ found)
        exact sorted.insertAll_sublist (chosen.cons head) (List.Sublist.refl list)
      · have inside : item ∈ items :=
          (List.mem_cons.mp member).resolve_left fun equal => here equal.symm
        refine (ih inside dropped (fun other found => ?_) fun other found => ?_).trans
          (sublist_insertItem head _)
        · exact least other (mem_insertItem.mpr (Or.inr found))
        · exact same other (List.mem_cons_of_mem head found)
  | @cons_cons fewer items head chosen ih =>
      have apart : item ≠ head := fun equal =>
        dropped (equal ▸ List.mem_cons_self)
      have inside : item ∈ items := (List.mem_cons.mp member).resolve_left apart
      have before : item.1 < head.1 := by
        refine lt_of_le_of_ne (least head (mem_insertItem.mpr (Or.inl rfl))) fun equal => ?_
        exact apart (same head List.mem_cons_self equal.symm).symm
      have front := ih inside
        (fun found => dropped (List.mem_cons_of_mem head found))
        (fun other found => least other (mem_insertItem.mpr (Or.inr found)))
        (fun other found => same other (List.mem_cons_of_mem head found))
      rw [insertAll_cons, insertAll_cons, ← insertItem_cons_of_lt before]
      exact (sorted.insertAll items).insertItem_sublist front head

theorem sublist_insertAll (items list : List (κ × Nat)) :
    list.Sublist (insertAll items list) := by
  induction items with
  | nil => exact List.Sublist.refl list
  | cons item items ih => exact ih.trans (sublist_insertItem item _)

/--
The scan ahead takes an item.  Either the scan behind does not have it, or it
comes first there as well.
-/
theorem pending_step
    {position : WithBot κ} {first stop : Nat} {left rest : List (κ × Nat)}
    {item : κ × Nat}
    (sorted : Sorted left)
    (ordered : Sorted (item :: rest))
    (reached : position ≤ item.1)
    (inside : (insertAll (pending weight insertion position first stop) left).Sublist
      (item :: rest)) :
    (insertAll (pending weight insertion item.1 first stop) left).Sublist rest ∨
      ∃ behind, left = item :: behind ∧
        (insertAll (pending weight insertion item.1 first stop) behind).Sublist rest := by
  have fewer := pending_sublist reached weight insertion first stop
  have least :
      ∀ other ∈ insertAll (pending weight insertion position first stop) left,
        item.1 ≤ other.1 := by
    intro other member
    rcases List.mem_cons.mp (inside.subset member) with rfl | found
    · exact le_refl _
    · exact (List.pairwise_cons.mp ordered).1 other found
  by_cases early : ∃ other ∈ pending weight insertion position first stop, other.1 ≤ item.1
  · rcases early with ⟨other, member, before⟩
    left
    have taken :
        (other :: insertAll (pending weight insertion item.1 first stop) left).Sublist
          (item :: rest) := by
      refine (cons_insertAll_sublist sorted fewer member ?_ ?_ ?_).trans inside
      · intro found
        exact not_lt_of_ge before (WithBot.coe_lt_coe.mp (mem_pending found).1)
      · exact fun third found => before.trans (least third found)
      · intro third found equal
        exact Prod.ext equal ((mem_pending found).2.trans (mem_pending member).2.symm)
    exact taken.tail
  · have late : ∀ other ∈ pending weight insertion position first stop,
        item.1 < other.1 := by
      intro other member
      exact lt_of_not_ge fun before => early ⟨other, member, before⟩
    rcases List.sublist_cons_iff.mp inside with inside | ⟨tail, shape, inside⟩
    · exact Or.inl ((sorted.insertAll_sublist fewer (List.Sublist.refl left)).trans inside)
    · have member : item ∈ left := by
        have found : item ∈ insertAll (pending weight insertion position first stop) left :=
          shape ▸ List.mem_cons_self
        rcases mem_insertAll.mp found with found | found
        · exact absurd (late item found) (lt_irrefl _)
        · exact found
      cases left with
      | nil => exact absurd member List.not_mem_nil
      | cons head behind =>
          have first_le : head.1 ≤ item.1 := by
            rcases List.mem_cons.mp member with rfl | found
            · exact le_refl _
            · exact (List.pairwise_cons.mp sorted).1 item found
          rw [insertAll_cons_of_lt fun other found =>
            lt_of_le_of_lt first_le (late other found)] at shape
          rcases List.cons.inj shape with ⟨rfl, rfl⟩
          refine Or.inr ⟨behind, rfl, ?_⟩
          have rest_sorted : Sorted behind := (List.pairwise_cons.mp sorted).2
          exact (rest_sorted.insertAll_sublist fewer (List.Sublist.refl behind)).trans inside

/-- A bin closed by the scan ahead makes its insertion pending. -/
theorem pending_close_ahead
    {position : κ} {first stop : Nat} {left rest : List (κ × Nat)}
    (ordered : first ≤ stop)
    (sorted : Sorted rest)
    (inside : (insertAll (pending weight insertion position first stop) left).Sublist rest) :
    (insertAll (pending weight insertion position first (stop + 1)) left).Sublist
      (insertLater weight (insertion stop) position rest) := by
  rw [pending, inserted_succ weight insertion ordered, List.filter_append, insertAll_append,
    insertLater_eq]
  simp only [WithBot.coe_lt_coe]
  refine sorted.insertAll_sublist (List.Sublist.refl _) ?_
  simpa only [pending, WithBot.coe_lt_coe] using inside

/-- A bin closed by the scan behind makes its pending insertion itself. -/
theorem pending_close_behind
    {position : κ} {first stop : Nat} (below : first < stop) (left : List (κ × Nat)) :
    insertAll (pending weight insertion position (first + 1) stop)
        (insertLater weight (insertion first) position left) =
      insertAll (pending weight insertion position first stop) left := by
  rw [pending, pending, inserted_pop weight insertion below, List.filter_append,
    insertAll_append, insertLater_eq]
  simp only [WithBot.coe_lt_coe]

/--
Two scans with the same insertions, both arrived at a position: the one that
is ahead, and whose sequence holds that of the other with the insertions
pending for it, ends ahead.
-/
theorem Scan.mono_from
    {right : List (κ × Nat)} {ahead last : Fill}
    (leading : Scan capacity weight insertion right ahead last)
    {left : List (κ × Nat)} {fill final : Fill}
    (following : Scan capacity weight insertion left fill final)
    {position : WithBot κ}
    (leftSorted : Sorted left) (rightSorted : Sorted right)
    (reached : ∀ item ∈ right, position ≤ item.1)
    (below : fill ≤ ahead)
    (inside : (insertAll (pending weight insertion position fill.closed ahead.closed)
      left).Sublist right) :
    final ≤ last := by
  induction leading generalizing left fill position with
  | done ahead =>
      have empty : left = [] :=
        List.eq_nil_of_sublist_nil ((sublist_insertAll _ left).trans inside)
      subst empty
      cases following
      exact below
  | @fits item rest ahead last room later ih =>
      have ordered := List.pairwise_cons.mp rightSorted
      have next_reached : ∀ other ∈ rest, (item.1 : WithBot κ) ≤ other.1 :=
        fun other member => WithBot.coe_le_coe.mpr (ordered.1 other member)
      have put_eq := Fill.put_of_fits room
      rcases pending_step leftSorted rightSorted (reached item List.mem_cons_self) inside with
        skipped | ⟨behind, rfl, matched⟩
      · refine ih following leftSorted ordered.2 next_reached ?_ skipped
        exact put_eq ▸ le_trans below (Fill.le_put capacity ahead item.2)
      · have next_below := Fill.put_mono below capacity item.2
        rw [put_eq] at next_below
        cases following with
        | fits fit following =>
            rw [Fill.put_of_fits fit] at next_below
            exact ih following (List.pairwise_cons.mp leftSorted).2 ordered.2 next_reached
              next_below matched
        | closes full following =>
            rw [Fill.put_of_not_fits full] at next_below
            refine ih following (Sorted.insertLater (List.pairwise_cons.mp leftSorted).2 _ _)
              ordered.2 next_reached next_below ?_
            rwa [pending_close_behind (Nat.lt_of_succ_le (Fill.closed_le next_below))]
  | @closes item rest ahead last crowded later ih =>
      have ordered := List.pairwise_cons.mp rightSorted
      have rest_sorted : Sorted rest := ordered.2
      have next_sorted :
          Sorted (insertLater weight (insertion ahead.closed) item.1 rest) :=
        rest_sorted.insertLater _ _
      have next_reached :
          ∀ other ∈ insertLater weight (insertion ahead.closed) item.1 rest,
            (item.1 : WithBot κ) ≤ other.1 := by
        intro other member
        rw [insertLater_eq, mem_insertAll] at member
        rcases member with member | member
        · exact WithBot.coe_le_coe.mpr
            (le_of_lt (of_decide_eq_true (List.mem_filter.mp member).2))
        · exact WithBot.coe_le_coe.mpr (ordered.1 other member)
      have put_eq := Fill.put_of_not_fits crowded
      rcases pending_step leftSorted rightSorted (reached item List.mem_cons_self) inside with
        skipped | ⟨behind, rfl, matched⟩
      · refine ih following leftSorted next_sorted next_reached ?_
          (pending_close_ahead (Fill.closed_le below) rest_sorted skipped)
        exact put_eq ▸ le_trans below (Fill.le_put capacity ahead item.2)
      · have next_below := Fill.put_mono below capacity item.2
        rw [put_eq] at next_below
        have next_inside :=
          pending_close_ahead (Fill.closed_le below) rest_sorted matched
        cases following with
        | fits fit following =>
            rw [Fill.put_of_fits fit] at next_below
            exact ih following (List.pairwise_cons.mp leftSorted).2 next_sorted next_reached
              next_below next_inside
        | closes full following =>
            rw [Fill.put_of_not_fits full] at next_below
            refine ih following (Sorted.insertLater (List.pairwise_cons.mp leftSorted).2 _ _)
              next_sorted next_reached next_below ?_
            rwa [pending_close_behind (Nat.lt_of_succ_le (Fill.closed_le next_below))]

/--
Of two scans with the same insertions the one over the larger sequence closes
at least as many bins.
-/
theorem Scan.mono
    {left right : List (κ × Nat)} {fill final last : Fill}
    (following : Scan capacity weight insertion left fill final)
    (leading : Scan capacity weight insertion right fill last)
    (sorted : Sorted right) (inside : left.Sublist right) :
    final ≤ last := by
  have reached : ∀ item ∈ right, (⊥ : WithBot κ) ≤ item.1 := fun _ _ => bot_le
  refine leading.mono_from following (sorted.sublist inside) sorted reached (le_refl fill) ?_
  rwa [pending, inserted_self]

end Keyed

end Packing
