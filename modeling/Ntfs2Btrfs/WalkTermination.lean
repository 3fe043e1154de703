import Ntfs2Btrfs.AttributeWalk

/-!
# Termination of the attribute walk

The loops over a chain of attribute records always end: a record length of
zero ends the chain, and any other moves towards the end of the buffer.  The
loops over the attribute list have no such test, and an entry of length zero
is visited for ever.
-/

namespace Ntfs2Btrfs

open ByteStore Extents

/-! ## Computations that end -/

/-- The computation has ended. -/
def Halts {α : Type} (walk : Walk α) : Prop :=
  walk ≠ .error .running

theorem halts_ok {α : Type} (value : α) : Halts (.ok value : Walk α) :=
  fun running => by cases running

theorem halts_pure {α : Type} (value : α) : Halts (pure value : Walk α) :=
  halts_ok value

theorem Halts.bind
    {α β : Type} {walk : Walk α} {next : α → Walk β} (first : Halts walk)
    (later : ∀ value, walk = .ok value → Halts (next value)) : Halts (walk >>= next) := by
  cases walk with
  | error stop =>
    intro running
    exact first (congrArg Except.error (Except.error.inj running))
  | ok value => exact later value rfl

theorem Halts.map {α β : Type} {walk : Walk α} {change : α → β} (first : Halts walk) :
    Halts (walk.map change) := by
  cases walk with
  | error stop =>
    intro running
    exact first (congrArg Except.error (Except.error.inj running))
  | ok value => exact halts_ok _

theorem halts_ite {α : Type} {condition : Prop} [Decidable condition] {yes no : Walk α}
    (yesHalts : condition → Halts yes) (noHalts : ¬ condition → Halts no) :
    Halts (if condition then yes else no) := by
  split_ifs with holds
  · exact yesHalts holds
  · exact noHalts holds

theorem halts_bytesAt (buf : Bytes) (offset length : Nat) : Halts (bytesAt buf offset length) :=
  halts_ite (fun _ => halts_ok _) fun _ running => by cases running

theorem halts_field (buf : Bytes) (offset width : Nat) : Halts (field buf offset width) :=
  halts_ite (fun _ => halts_ok _) fun _ running => by cases running

/-- What a computation in two steps returned. -/
theorem bind_eq_ok_iff
    {α β : Type} {walk : Walk α} {next : α → Walk β} {result : β} :
    (walk >>= next) = .ok result ↔ ∃ value, walk = .ok value ∧ next value = .ok result := by
  cases walk with
  | error stop =>
    constructor
    · intro ended
      cases ended
    · rintro ⟨value, ended, -⟩
      cases ended
  | ok value =>
    constructor
    · intro ended
      exact ⟨value, rfl, ended⟩
    · rintro ⟨other, same, ended⟩
      obtain rfl := Except.ok.inj same
      exact ended

theorem field_eq_ok
    {buf : Bytes} {offset width value : Nat} (read : field buf offset width = .ok value) :
    offset + width ≤ buf.length := by
  rw [field] at read
  split_ifs at read with inside
  exact inside

/-! ## Chains of attribute records -/

theorem halts_isEnd (record : Bytes) (att : Nat) : Halts (isEnd record att) := by
  refine (halts_field _ _ _).bind fun type _ => halts_ite (fun _ => halts_pure _) fun _ => ?_
  exact (halts_field _ _ _).bind fun _ _ => halts_pure _

/-- Where a chain goes on, there is room for the header, and the record is not empty. -/
theorem of_isEnd_false
    {record : Bytes} {att : Nat} (goesOn : isEnd record att = .ok false) :
    att + 6 ≤ record.length ∧
      ∀ length, recordLength record att = .ok length → 0 < length := by
  rw [isEnd, bind_eq_ok_iff] at goesOn
  obtain ⟨type, -, rest⟩ := goesOn
  split_ifs at rest with isLast
  · cases rest
  · rw [bind_eq_ok_iff] at rest
    obtain ⟨length, read, shown⟩ := rest
    have room := field_eq_ok read
    refine ⟨by omega, fun other otherRead => ?_⟩
    rw [read] at otherRead
    obtain rfl := Except.ok.inj otherRead
    have nonzero : decide (length = 0) = false := Except.ok.inj shown
    have different : length ≠ 0 := by simpa using nonzero
    omega

theorem halts_matchesEntry (record attlist : Bytes) (ent att : Nat) :
    Halts (matchesEntry record attlist ent att) := by
  refine (halts_field _ _ _).bind fun type _ => (halts_field _ _ _).bind fun _ _ => ?_
  refine halts_ite (fun _ => halts_pure _) fun _ => ?_
  refine (halts_field _ _ _).bind fun characters _ => (halts_field _ _ _).bind fun _ _ => ?_
  refine halts_ite (fun _ => halts_pure _) fun _ => ?_
  refine (halts_field _ _ _).bind fun _ _ => (halts_field _ _ _).bind fun _ _ => ?_
  refine halts_ite (fun _ => halts_pure _) fun _ => ?_
  refine halts_ite (fun _ => halts_pure _) fun _ => ?_
  refine (halts_field _ _ _).bind fun _ _ => (halts_bytesAt _ _ _).bind fun _ _ => ?_
  exact (halts_field _ _ _).bind fun _ _ => (halts_bytesAt _ _ _).bind fun _ _ => halts_pure _

theorem halts_delivery (record : Bytes) (att : Nat) : Halts (delivery record att) := by
  refine Halts.bind ?_ fun data _ => Halts.bind ?_ fun name _ => halts_pure _
  · refine (halts_field _ _ _).bind fun form _ => halts_ite (fun _ => ?_) fun _ => halts_pure _
    exact (halts_field _ _ _).bind fun _ _ => (halts_field _ _ _).bind fun _ _ => halts_pure _
  · refine (halts_field _ _ _).bind fun characters _ =>
      halts_ite (fun _ => ?_) fun _ => halts_pure _
    exact (halts_field _ _ _).bind fun _ _ => halts_pure _

/-- The search in a chain ends. -/
theorem halts_searchEntry
    (record attlist : Bytes) (ent : Nat) {turns att : Nat} (positive : 0 < turns)
    (enough : record.length + 1 ≤ att + turns) :
    Halts (searchEntry record attlist ent turns att) := by
  induction turns generalizing att with
  | zero => omega
  | succ turns ih =>
    refine (halts_isEnd record att).bind fun last lastRead => ?_
    refine halts_ite (fun _ => halts_pure _) fun goesOn => ?_
    refine (halts_matchesEntry record attlist ent att).bind fun found _ => ?_
    refine halts_ite (fun _ => halts_pure _) fun _ => ?_
    obtain ⟨room, nonempty⟩ := of_isEnd_false
      (show isEnd record att = .ok false by rw [lastRead]; simpa using goesOn)
    refine (halts_field _ _ _).bind fun length read => ?_
    have moved := nonempty length read
    exact ih (by omega) (by omega)

theorem halts_findEntry (record attlist : Bytes) (ent : Nat) :
    Halts (findEntry record attlist ent) := by
  refine (halts_field _ _ _).bind fun first _ => ?_
  refine (halts_searchEntry record attlist ent (Nat.succ_pos _) (by omega)).bind fun found _ => ?_
  cases found with
  | none => exact halts_pure _
  | some att => exact (halts_delivery record att).bind fun _ _ => halts_pure _

/-- The search for the list gets from one attribute record to another. -/
inductive SearchesTo (record : Bytes) : Nat → Nat → Prop where
  | here {att : Nat} (goesOn : isEnd record att = .ok false) : SearchesTo record att att
  | next {att type length last : Nat} (goesOn : isEnd record att = .ok false)
      (typeRead : typeCode record att = .ok type) (noList : type ≠ attributeListType)
      (lengthRead : recordLength record att = .ok length)
      (rest : SearchesTo record (att + length) last) : SearchesTo record att last

/-- The record has a list that is not resident at this offset. -/
def NonresidentListAt (record : Bytes) (first att : Nat) : Prop :=
  SearchesTo record first att ∧ typeCode record att = .ok attributeListType ∧
    formCode record att = .ok 1

/-- One turn of the search for the list. -/
theorem attributeList_succ
    {access : FileAccess} {record : Bytes} {turns att : Nat}
    (goesOn : isEnd record att = .ok false) :
    attributeList access record (turns + 1) att =
      typeCode record att >>= fun type =>
        if type = attributeListType then
          formCode record att >>= fun form =>
            if form = 1 then access.readList record att
            else valueOffset record att >>= fun start => valueLength record att >>= fun length =>
              bytesAt record (att + start) length
        else recordLength record att >>= fun length =>
          attributeList access record turns (att + length) := by
  rw [attributeList, goesOn]
  rfl

/-- The search for the list ends if reading the list that it finds does. -/
theorem halts_attributeList
    {access : FileAccess} {record : Bytes} {turns att : Nat}
    (reads : ∀ last, NonresidentListAt record att last → Halts (access.readList record last))
    (positive : 0 < turns) (enough : record.length + 1 ≤ att + turns) :
    Halts (attributeList access record turns att) := by
  induction turns generalizing att with
  | zero => omega
  | succ turns ih =>
    cases goesOn : isEnd record att with
    | error stop =>
      have ends := halts_isEnd record att
      rw [goesOn] at ends
      rw [attributeList, goesOn]
      exact fun running => ends (congrArg Except.error (Except.error.inj running))
    | ok last =>
      cases last with
      | true =>
        rw [attributeList, goesOn]
        exact halts_pure _
      | false =>
        rw [attributeList_succ goesOn]
        obtain ⟨room, nonempty⟩ := of_isEnd_false goesOn
        refine (halts_field _ _ _).bind fun type typeRead => halts_ite (fun isList => ?_) fun noList => ?_
        · rw [isList] at typeRead
          refine (halts_field _ _ _).bind fun form formRead => halts_ite (fun nonresident => ?_) fun _ => ?_
          · rw [nonresident] at formRead
            exact reads att ⟨.here goesOn, typeRead, formRead⟩
          · exact (halts_field _ _ _).bind fun _ _ => (halts_field _ _ _).bind fun _ _ =>
              halts_bytesAt _ _ _
        · refine (halts_field _ _ _).bind fun length lengthRead => ?_
          have moved := nonempty length lengthRead
          refine ih (fun last found => ?_) (by omega) (by omega)
          exact reads last ⟨.next goesOn typeRead noList lengthRead found.1, found.2⟩

/-- If the search for the list ends, so does reading the list that it finds. -/
theorem halts_readList
    {access : FileAccess} {record : Bytes} {turns first att : Nat}
    (ends : Halts (attributeList access record turns first))
    (found : NonresidentListAt record first att) : Halts (access.readList record att) := by
  obtain ⟨searched, isList, nonresident⟩ := found
  induction searched generalizing turns with
  | here goesOn =>
    cases turns with
    | zero => exact absurd rfl ends
    | succ turns =>
      rw [attributeList_succ goesOn, isList] at ends
      replace ends : Halts (formCode record _ >>= fun form =>
        if form = 1 then access.readList record _ else _) := ends
      rw [nonresident] at ends
      exact ends
  | next goesOn typeRead noList lengthRead _ ih =>
    cases turns with
    | zero => exact absurd rfl ends
    | succ turns =>
      refine @ih turns ?_ isList nonresident
      rw [attributeList_succ goesOn, typeRead] at ends
      replace ends : Halts (if _ = attributeListType then _ else recordLength record _ >>=
        fun length => attributeList access record turns (_ + length)) := ends
      rw [if_neg noList, lengthRead] at ends
      exact ends

theorem halts_walkRecord
    {σ : Type} {record : Bytes} {func : Visitor σ} (calls : ∀ state given, Halts (func state given))
    {turns att : Nat} (positive : 0 < turns) (enough : record.length + 1 ≤ att + turns)
    (state : σ) : Halts (walkRecord record func turns att state) := by
  induction turns generalizing att state with
  | zero => omega
  | succ turns ih =>
    refine (halts_isEnd record att).bind fun last lastRead => ?_
    refine halts_ite (fun _ => halts_pure _) fun goesOn => ?_
    obtain ⟨room, nonempty⟩ := of_isEnd_false
      (show isEnd record att = .ok false by rw [lastRead]; simpa using goesOn)
    refine (halts_delivery record att).bind fun given _ => (calls state given).bind fun called _ => ?_
    refine halts_ite (fun _ => halts_pure _) fun _ => ?_
    refine (halts_field _ _ _).bind fun length read => ?_
    have moved := nonempty length read
    exact ih (by omega) (by omega) _

theorem halts_visitEntry
    {σ : Type} {func : Visitor σ} (calls : ∀ state given, Halts (func state given))
    (record attlist : Bytes) (state : σ) (ent : Nat) :
    Halts (visitEntry record attlist func state ent) := by
  refine (halts_findEntry record attlist ent).bind fun found _ => ?_
  cases found with
  | none => exact halts_pure _
  | some given => exact calls state given

/-! ## Entries of a list -/

/-- Where the entry of a number starts, if the loops over the list get there. -/
def entryAt (attlist : Bytes) : Nat → Option Nat
  | 0 => some 0
  | index + 1 =>
      match entryAt attlist index with
      | none => none
      | some ent =>
          match entryLength attlist ent with
          | .error _ => none
          | .ok length =>
              if length ≠ 0 ∧ ent + length < attlist.length then some (ent + length) else none

theorem entryAt_succ_of_length
    {attlist : Bytes} {index ent length : Nat} (here : entryAt attlist index = some ent)
    (read : entryLength attlist ent = .ok length) :
    entryAt attlist (index + 1) =
      if length ≠ 0 ∧ ent + length < attlist.length then some (ent + length) else none := by
  simp only [entryAt, here, read]

theorem entryAt_of_none
    {attlist : Bytes} {index later : Nat} (gone : entryAt attlist index = none)
    (after : index ≤ later) : entryAt attlist later = none := by
  induction later, after using Nat.le_induction with
  | base => exact gone
  | succ later _ ih => simp only [entryAt, ih]

/-- The entries from one on: this one, and those from the next on. -/
theorem forall_entryAt_from
    {attlist : Bytes} {index ent : Nat} (here : entryAt attlist index = some ent)
    {property : Nat → Prop} (this : property ent)
    (later : ∀ other, index + 1 ≤ other → ∀ next, entryAt attlist other = some next →
      property next) :
    ∀ other, index ≤ other → ∀ next, entryAt attlist other = some next → property next := by
  intro other after next found
  rcases Nat.eq_or_lt_of_le after with rfl | beyond
  · rw [here] at found
    obtain rfl := Option.some.inj found
    exact this
  · exact later other beyond next found

theorem no_entryAt_after
    {attlist : Bytes} {index : Nat} (last : entryAt attlist (index + 1) = none)
    {property : Nat → Prop} :
    ∀ other, index + 1 ≤ other → ∀ next, entryAt attlist other = some next → property next := by
  intro other after next found
  rw [entryAt_of_none last after] at found
  cases found

/-- One turn of the loop over a list. -/
theorem walkList_succ
    {σ : Type} (attlist : Bytes) (visit : σ → Nat → Walk (Bool × σ)) (turns ent left : Nat)
    (state : σ) :
    walkList attlist visit (turns + 1) ent left state =
      visit state ent >>= fun called =>
        if called.1 = false then .ok (false, called.2)
        else
          entryLength attlist ent >>= fun length =>
            if left ≤ length then .ok (true, called.2)
            else walkList attlist visit turns (ent + length) (left - length) called.2 :=
  rfl

/-- One turn whose visit succeeds. -/
theorem walkList_of_visit
    {σ : Type} {attlist : Bytes} {visit : σ → Nat → Walk (Bool × σ)} {turns ent left length : Nat}
    {state middle : σ} (called : visit state ent = .ok (true, middle))
    (read : entryLength attlist ent = .ok length) :
    walkList attlist visit (turns + 1) ent left state =
      if left ≤ length then .ok (true, middle)
      else walkList attlist visit turns (ent + length) (left - length) middle := by
  rw [walkList_succ, called, read]
  rfl

theorem entryAt_zero (attlist : Bytes) : entryAt attlist 0 = some 0 :=
  rfl

section List

variable {σ : Type} {attlist : Bytes} {visit : σ → Nat → Walk (Bool × σ)} (good : Nat → Prop)

/--
The loop ends if every visit does and a failing visit comes before an entry of
length zero.
-/
theorem halts_walkList
    (visits : ∀ state ent, Halts (visit state ent))
    (passes : ∀ state ent next, visit state ent = .ok (true, next) → good ent)
    (noZero : ∀ index ent, entryAt attlist index = some ent →
      entryLength attlist ent = .ok 0 →
        ∃ earlier ≤ index, ∃ other, entryAt attlist earlier = some other ∧ ¬ good other)
    {index ent turns : Nat} (here : entryAt attlist index = some ent)
    (before : ∀ earlier < index, ∀ other, entryAt attlist earlier = some other → good other)
    (inside : ent < attlist.length) (enough : attlist.length - ent < turns) (state : σ) :
    Halts (walkList attlist visit turns ent (attlist.length - ent) state) := by
  induction turns generalizing index ent state with
  | zero => omega
  | succ turns ih =>
    rw [walkList_succ]
    refine (visits state ent).bind fun called calledOk => halts_ite (fun _ => halts_ok _) fun goOn => ?_
    refine (halts_field _ _ _).bind fun length read => halts_ite (fun _ => halts_ok _) fun more => ?_
    have passed : good ent := by
      refine passes state ent called.2 ?_
      rw [calledOk]
      exact congrArg Except.ok (Prod.ext (by simpa using goOn) rfl)
    have upTo : ∀ earlier ≤ index, ∀ other, entryAt attlist earlier = some other → good other := by
      intro earlier atMost other found
      rcases Nat.eq_or_lt_of_le atMost with rfl | less
      · rw [here] at found
        obtain rfl := Option.some.inj found
        exact passed
      · exact before earlier less other found
    have nonzero : length ≠ 0 := by
      rintro rfl
      obtain ⟨earlier, atMost, other, found, bad⟩ := noZero index ent here read
      exact bad (upTo earlier atMost other found)
    have next := entryAt_succ_of_length here read
    rw [if_pos ⟨nonzero, by omega⟩] at next
    rw [show attlist.length - ent - length = attlist.length - (ent + length) by omega]
    exact ih next (fun earlier less => upTo earlier (Nat.le_of_lt_succ less)) (by omega) (by omega)
      called.2

/-- If the loop goes through the list, every visit of an entry succeeded. -/
theorem walkList_passes
    (passes : ∀ state ent next, visit state ent = .ok (true, next) → good ent)
    {index ent turns : Nat} (here : entryAt attlist index = some ent)
    (inside : ent < attlist.length) {state final : σ}
    (ended : walkList attlist visit turns ent (attlist.length - ent) state = .ok (true, final)) :
    ∀ other, index ≤ other → ∀ next, entryAt attlist other = some next → good next := by
  induction turns generalizing index ent state with
  | zero => cases ended
  | succ turns ih =>
    rw [walkList_succ, bind_eq_ok_iff] at ended
    obtain ⟨⟨goOn, middle⟩, calledOk, ended⟩ := ended
    cases goOn with
    | false => cases ended
    | true =>
      rw [if_neg (by simp), bind_eq_ok_iff] at ended
      obtain ⟨length, read, ended⟩ := ended
      have next := entryAt_succ_of_length here read
      refine forall_entryAt_from here (passes state ent middle calledOk) ?_
      by_cases moves : length ≠ 0 ∧ ent + length < attlist.length
      · rw [if_pos moves] at next
        rw [if_neg (by omega),
          show attlist.length - ent - length = attlist.length - (ent + length) by omega] at ended
        exact ih next moves.2 ended
      · rw [if_neg moves] at next
        exact no_entryAt_after next

/-- If every visit of an entry would succeed, the loop goes through the list or goes on. -/
theorem walkList_succeeds
    (visits : ∀ state ent, good ent → ∃ next, visit state ent = .ok (true, next))
    (reads : ∀ ent, good ent → ∃ length, entryLength attlist ent = .ok length)
    {index ent : Nat} (here : entryAt attlist index = some ent)
    (inside : ent < attlist.length)
    (all : ∀ other, index ≤ other → ∀ next, entryAt attlist other = some next → good next)
    (turns : Nat) (state : σ) :
    walkList attlist visit turns ent (attlist.length - ent) state = .error .running ∨
      ∃ final, walkList attlist visit turns ent (attlist.length - ent) state =
        .ok (true, final) := by
  induction turns generalizing index ent state with
  | zero => exact Or.inl rfl
  | succ turns ih =>
    have this := all index le_rfl ent here
    obtain ⟨middle, called⟩ := visits state ent this
    obtain ⟨length, read⟩ := reads ent this
    rw [walkList_of_visit called read]
    split_ifs with last
    · exact Or.inr ⟨middle, rfl⟩
    · rcases Nat.eq_zero_or_pos length with rfl | positive
      · exact ih here inside all middle
      · have next := entryAt_succ_of_length here read
        rw [if_pos ⟨by omega, by omega⟩] at next
        rw [show attlist.length - ent - length = attlist.length - (ent + length) by omega]
        exact ih next (by omega) (fun other after => all other (by omega)) middle

/-- An entry of length zero that is visited keeps the loop going for ever. -/
theorem walkList_runs
    (visits : ∀ state ent, good ent → ∃ next, visit state ent = .ok (true, next))
    (reads : ∀ ent, good ent → ∃ length, entryLength attlist ent = .ok length)
    {last stuck : Nat} (there : entryAt attlist last = some stuck)
    (zeroLength : entryLength attlist stuck = .ok 0)
    (upTo : ∀ other ≤ last, ∀ next, entryAt attlist other = some next → good next)
    {index ent : Nat} (before : index ≤ last) (here : entryAt attlist index = some ent)
    (inside : ent < attlist.length) (turns : Nat) (state : σ) :
    walkList attlist visit turns ent (attlist.length - ent) state = .error .running := by
  induction turns generalizing index ent state with
  | zero => rfl
  | succ turns ih =>
    have this := upTo index before ent here
    obtain ⟨middle, called⟩ := visits state ent this
    obtain ⟨length, read⟩ := reads ent this
    rw [walkList_of_visit called read]
    rcases Nat.eq_or_lt_of_le before with rfl | earlier
    · rw [here] at there
      obtain rfl := Option.some.inj there
      rw [zeroLength] at read
      obtain rfl := Except.ok.inj read
      rw [if_neg (by omega)]
      exact ih before here inside middle
    · have next := entryAt_succ_of_length here read
      by_cases moves : length ≠ 0 ∧ ent + length < attlist.length
      · rw [if_pos moves] at next
        rw [if_neg (by omega),
          show attlist.length - ent - length = attlist.length - (ent + length) by omega]
        exact ih earlier next moves.2 middle
      · rw [if_neg moves] at next
        rw [entryAt_of_none next earlier] at there
        cases there

/-- The loop does not get past an entry of length zero. -/
theorem walkList_ne_of_zero
    {ent left : Nat} (zeroLength : entryLength attlist ent = .ok 0) (positive : 0 < left)
    {turns : Nat} (state final : σ) :
    walkList attlist visit turns ent left state ≠ .ok (true, final) := by
  induction turns generalizing state with
  | zero => exact fun ended => by cases ended
  | succ turns ih =>
    intro ended
    rw [walkList_succ, bind_eq_ok_iff] at ended
    obtain ⟨⟨goOn, middle⟩, -, ended⟩ := ended
    cases goOn with
    | false => cases ended
    | true =>
      rw [if_neg (by simp), zeroLength] at ended
      replace ended : (if left ≤ 0 then .ok (true, middle)
        else walkList attlist visit turns (ent + 0) (left - 0) middle) =
          Except.ok (true, final) := ended
      rw [if_neg (by omega)] at ended
      exact ih middle ended

end List

theorem entryAt_lt
    {attlist : Bytes} (nonempty : attlist ≠ []) {index ent : Nat}
    (here : entryAt attlist index = some ent) : ent < attlist.length := by
  cases index with
  | zero =>
    obtain rfl := Option.some.inj here
    exact List.length_pos_iff.mpr nonempty
  | succ index =>
    rw [entryAt] at here
    split at here
    · cases here
    · split at here
      · cases here
      · split_ifs at here with moves
        obtain rfl := Option.some.inj here
        exact moves.2

/-! ## Records noted in the first pass -/

/-- The other records that the entries before one refer to, by first appearance. -/
def notedUpTo (attlist : Bytes) (inode : Nat) : Nat → List Nat
  | 0 => []
  | index + 1 =>
      match (entryAt attlist index).map (entryReference attlist) with
      | some (.ok reference) =>
          if reference = inode ∨ reference ∈ notedUpTo attlist inode index then
            notedUpTo attlist inode index
          else notedUpTo attlist inode index ++ [reference]
      | _ => notedUpTo attlist inode index

theorem notedUpTo_succ
    {attlist : Bytes} {inode index ent reference : Nat}
    (here : entryAt attlist index = some ent)
    (refers : entryReference attlist ent = .ok reference) :
    notedUpTo attlist inode (index + 1) =
      if reference = inode ∨ reference ∈ notedUpTo attlist inode index then
        notedUpTo attlist inode index
      else notedUpTo attlist inode index ++ [reference] := by
  simp only [notedUpTo, here, refers, Option.map_some]

/-- The entry at an index refers to a record other than the base record. -/
def RefersAt (attlist : Bytes) (inode index reference : Nat) : Prop :=
  ∃ ent, entryAt attlist index = some ent ∧ entryReference attlist ent = .ok reference ∧
    reference ≠ inode

/-- Two entries at the same index refer to the same record. -/
theorem RefersAt.unique
    {attlist : Bytes} {inode index first second : Nat}
    (refersFirst : RefersAt attlist inode index first)
    (refersSecond : RefersAt attlist inode index second) : first = second := by
  obtain ⟨ent, here, read, -⟩ := refersFirst
  obtain ⟨place, samePlace, sameRead, -⟩ := refersSecond
  rw [here] at samePlace
  obtain rfl := Option.some.inj samePlace
  rw [read] at sameRead
  exact Except.ok.inj sameRead

theorem notedUpTo_succ_cases (attlist : Bytes) (inode index : Nat) :
    (notedUpTo attlist inode (index + 1) = notedUpTo attlist inode index ∧
      ∀ reference, RefersAt attlist inode index reference →
        reference ∈ notedUpTo attlist inode index) ∨
    ∃ reference, RefersAt attlist inode index reference ∧
      notedUpTo attlist inode (index + 1) = notedUpTo attlist inode index ++ [reference] := by
  by_cases refers : ∃ reference, RefersAt attlist inode index reference
  · obtain ⟨reference, ent, here, read, other⟩ := refers
    rw [notedUpTo_succ here read]
    split_ifs with known
    · refine Or.inl ⟨rfl, ?_⟩
      intro again refersAgain
      obtain rfl := RefersAt.unique ⟨ent, here, read, other⟩ refersAgain
      exact known.resolve_left other
    · exact Or.inr ⟨reference, ⟨ent, here, read, other⟩, rfl⟩
  · refine Or.inl ⟨?_, fun reference found => absurd ⟨reference, found⟩ refers⟩
    rw [notedUpTo]
    split
    · next reference found =>
      obtain ⟨ent, here, read⟩ := Option.map_eq_some_iff.mp found
      rw [if_pos]
      left
      by_contra other
      exact refers ⟨reference, ent, here, read, other⟩
    · rfl

theorem mem_notedUpTo
    {attlist : Bytes} {inode earlier index reference : Nat} (less : earlier < index)
    (refers : RefersAt attlist inode earlier reference) :
    reference ∈ notedUpTo attlist inode index := by
  induction index with
  | zero => omega
  | succ index ih =>
    rcases notedUpTo_succ_cases attlist inode index with ⟨same, all⟩ | ⟨last, found, grown⟩
    · rw [same]
      rcases Nat.eq_or_lt_of_le (Nat.le_of_lt_succ less) with rfl | before
      · exact all reference refers
      · exact ih before
    · rw [grown, List.mem_append, List.mem_singleton]
      rcases Nat.eq_or_lt_of_le (Nat.le_of_lt_succ less) with rfl | before
      · exact Or.inr (refers.unique found)
      · exact Or.inl (ih before)

theorem refersAt_of_mem_notedUpTo
    {attlist : Bytes} {inode index reference : Nat}
    (noted : reference ∈ notedUpTo attlist inode index) :
    ∃ earlier < index, RefersAt attlist inode earlier reference := by
  induction index with
  | zero => cases noted
  | succ index ih =>
    rcases notedUpTo_succ_cases attlist inode index with ⟨same, -⟩ | ⟨last, found, grown⟩
    · rw [same] at noted
      obtain ⟨earlier, less, refers⟩ := ih noted
      exact ⟨earlier, by omega, refers⟩
    · rw [grown, List.mem_append, List.mem_singleton] at noted
      rcases noted with noted | rfl
      · obtain ⟨earlier, less, refers⟩ := ih noted
        exact ⟨earlier, by omega, refers⟩
      · exact ⟨index, by omega, found⟩

/-- A record is noted, and what is noted before it is referred to before any entry for it. -/
theorem exists_split_notedUpTo
    {attlist : Bytes} {inode entry index reference : Nat} (less : entry < index)
    (refers : RefersAt attlist inode entry reference) :
    ∃ before after, notedUpTo attlist inode index = before ++ reference :: after ∧
      ∀ other ∈ before, ∃ earlier < entry, RefersAt attlist inode earlier other := by
  induction index, less using Nat.le_induction with
  | base =>
    rcases notedUpTo_succ_cases attlist inode entry with ⟨same, all⟩ | ⟨last, found, grown⟩
    · obtain ⟨before, after, split⟩ := List.append_of_mem (all reference refers)
      refine ⟨before, after, by rw [same, split], fun other known => ?_⟩
      exact refersAt_of_mem_notedUpTo (by rw [split]; exact List.mem_append_left _ known)
    · obtain rfl := refers.unique found
      exact ⟨_, [], grown, fun other known => refersAt_of_mem_notedUpTo known⟩
  | succ index _ ih =>
    obtain ⟨before, after, split, earlier⟩ := ih
    rcases notedUpTo_succ_cases attlist inode index with ⟨same, -⟩ | ⟨last, -, grown⟩
    · exact ⟨before, after, by rw [same, split], earlier⟩
    · refine ⟨before, after ++ [last], ?_, earlier⟩
      rw [grown, split, List.append_assoc, List.cons_append]

/-- What is noted before a record is what was referred to before an entry for it. -/
theorem notedUpTo_of_split
    {attlist : Bytes} {inode index : Nat} {before after : List Nat} {reference : Nat}
    (split : notedUpTo attlist inode index = before ++ reference :: after) :
    ∃ first < index, RefersAt attlist inode first reference ∧
      ∀ earlier < first, ∀ other, RefersAt attlist inode earlier other → other ∈ before := by
  induction index generalizing after with
  | zero => simp [notedUpTo] at split
  | succ index ih =>
    rcases notedUpTo_succ_cases attlist inode index with ⟨same, -⟩ | ⟨last, refers, grown⟩
    · rw [same] at split
      obtain ⟨first, less, rest⟩ := ih split
      exact ⟨first, by omega, rest⟩
    · rw [grown] at split
      rcases List.eq_nil_or_concat after with rfl | ⟨after, final, rfl⟩
      · obtain ⟨known, equal⟩ := List.append_inj' split rfl
        obtain rfl : last = reference := by simpa using equal
        refine ⟨index, by omega, refers, fun earlier less other found => ?_⟩
        rw [← known]
        exact mem_notedUpTo less found
      · rw [List.concat_eq_append, ← List.cons_append, ← List.append_assoc] at split
        obtain ⟨known, -⟩ := List.append_inj' split rfl
        obtain ⟨first, less, rest⟩ := ih known
        exact ⟨first, by omega, rest⟩

/-! ## The first pass -/

/-- The first pass gets past an entry, whatever the function answers. -/
def Passes (inode : Nat) (record attlist : Bytes) (ent : Nat) : Prop :=
  ∃ reference, entryReference attlist ent = .ok reference ∧
    (reference = inode → ∃ found, findEntry record attlist ent = .ok found)

/-- An entry whose reference can be read has a length that can be read. -/
theorem exists_entryLength_of_reference
    {attlist : Bytes} {ent reference : Nat} (read : entryReference attlist ent = .ok reference) :
    ∃ length, entryLength attlist ent = .ok length := by
  have room : ent + 16 + 8 ≤ attlist.length := by
    cases whole : field attlist (ent + 16) 8 with
    | error stop =>
      rw [entryReference, whole] at read
      cases read
    | ok value => exact field_eq_ok whole
  exact ⟨_, if_pos (by omega)⟩

theorem halts_entryReference (attlist : Bytes) (ent : Nat) :
    Halts (entryReference attlist ent) :=
  (halts_field _ _ _).map

theorem halts_visitBase
    {σ : Type} {func : Visitor σ} (calls : ∀ state given, Halts (func state given))
    (inode : Nat) (record attlist : Bytes) (state : σ × List Nat) (ent : Nat) :
    Halts (visitBase inode record attlist func state ent) := by
  refine (halts_entryReference attlist ent).bind fun reference _ => ?_
  refine halts_ite (fun _ => ?_) fun _ => halts_pure _
  exact (halts_visitEntry calls record attlist state.1 ent).bind fun _ _ => halts_pure _

theorem exists_findEntry_of_visitEntry
    {σ : Type} {func : Visitor σ} {record attlist : Bytes} {state : σ} {ent : Nat}
    {result : Bool × σ} (visited : visitEntry record attlist func state ent = .ok result) :
    ∃ found, findEntry record attlist ent = .ok found := by
  rw [visitEntry, bind_eq_ok_iff] at visited
  obtain ⟨found, read, -⟩ := visited
  exact ⟨found, read⟩

/-- What a visit of the first pass tells about the entry. -/
theorem visitBase_eq_ok
    {σ : Type} {func : Visitor σ} {inode : Nat} {record attlist : Bytes}
    {state : σ × List Nat} {ent : Nat} {goOn : Bool} {next : σ × List Nat}
    (visited : visitBase inode record attlist func state ent = .ok (goOn, next)) :
    ∃ reference, entryReference attlist ent = .ok reference ∧
      (reference = inode → ∃ found, findEntry record attlist ent = .ok found) ∧
      next.2 = if reference = inode ∨ reference ∈ state.2 then state.2
        else state.2 ++ [reference] := by
  rw [visitBase, bind_eq_ok_iff] at visited
  obtain ⟨reference, read, visited⟩ := visited
  refine ⟨reference, read, ?_⟩
  by_cases own : reference = inode
  · rw [if_pos own, bind_eq_ok_iff] at visited
    obtain ⟨⟨answer, changed⟩, called, rest⟩ := visited
    obtain ⟨-, rfl⟩ := Prod.ext_iff.mp (Except.ok.inj rest)
    exact ⟨fun _ => exists_findEntry_of_visitEntry called, by rw [if_pos (Or.inl own)]⟩
  · rw [if_neg own] at visited
    obtain ⟨-, rfl⟩ := Prod.ext_iff.mp (Except.ok.inj visited)
    refine ⟨fun same => absurd same own, ?_⟩
    simp only [own, false_or]

theorem passes_of_visitBase
    {σ : Type} {func : Visitor σ} {inode : Nat} {record attlist : Bytes}
    {state : σ × List Nat} {ent : Nat} {next : σ × List Nat}
    (visited : visitBase inode record attlist func state ent = .ok (true, next)) :
    Passes inode record attlist ent := by
  obtain ⟨reference, read, found, -⟩ := visitBase_eq_ok visited
  exact ⟨reference, read, found⟩

/-- The first pass leaves the other records in the order of their first entries. -/
theorem walkList_visitBase_noted
    {σ : Type} {func : Visitor σ} {inode : Nat} {record attlist : Bytes}
    {index ent turns : Nat} (here : entryAt attlist index = some ent)
    (inside : ent < attlist.length) {state final : σ} {others : List Nat}
    (ended : walkList attlist (visitBase inode record attlist func) turns ent
      (attlist.length - ent) (state, notedUpTo attlist inode index) =
        .ok (true, final, others)) :
    ∃ count, entryAt attlist count = none ∧ others = notedUpTo attlist inode count := by
  induction turns generalizing index ent state with
  | zero => cases ended
  | succ turns ih =>
    rw [walkList_succ, bind_eq_ok_iff] at ended
    obtain ⟨⟨goOn, middle, noted⟩, called, ended⟩ := ended
    obtain ⟨reference, refers, -, nextNoted⟩ := visitBase_eq_ok called
    have grown : noted = notedUpTo attlist inode (index + 1) := by
      rw [notedUpTo_succ here refers]
      exact nextNoted
    cases goOn with
    | false => cases ended
    | true =>
      rw [if_neg (by simp), bind_eq_ok_iff] at ended
      obtain ⟨length, read, ended⟩ := ended
      have next := entryAt_succ_of_length here read
      by_cases moves : length ≠ 0 ∧ ent + length < attlist.length
      · rw [if_pos moves] at next
        rw [if_neg (by omega), grown,
          show attlist.length - ent - length = attlist.length - (ent + length) by omega] at ended
        exact ih next moves.2 ended
      · rw [if_neg moves] at next
        split_ifs at ended with last
        · refine ⟨index + 1, next, ?_⟩
          rw [← grown]
          exact (Prod.ext_iff.mp (Prod.ext_iff.mp (Except.ok.inj ended)).2).2.symm
        · obtain rfl : length = 0 := by omega
          exact absurd ended (walkList_ne_of_zero read (by omega) _ _)

/-! ## The second pass -/

theorem halts_visitOther
    {σ : Type} {func : Visitor σ} (calls : ∀ state given, Halts (func state given))
    (reference : Nat) (record attlist : Bytes) (state : σ) (ent : Nat) :
    Halts (visitOther reference record attlist func state ent) := by
  refine (halts_entryReference attlist ent).bind fun refers _ => ?_
  exact halts_ite (fun _ => halts_visitEntry calls record attlist state ent) fun _ => halts_pure _

theorem passes_of_visitOther
    {σ : Type} {func : Visitor σ} {reference : Nat} {record attlist : Bytes}
    {state next : σ} {ent : Nat}
    (visited : visitOther reference record attlist func state ent = .ok (true, next)) :
    Passes reference record attlist ent := by
  rw [visitOther, bind_eq_ok_iff] at visited
  obtain ⟨refers, read, visited⟩ := visited
  refine ⟨refers, read, fun same => ?_⟩
  rw [if_pos same] at visited
  exact exists_findEntry_of_visitEntry visited

/-- The second pass does not get past a record, whatever the function answers. -/
def Refused (access : FileAccess) (attlist : Bytes) (reference : Nat) : Prop :=
  Halts (access.openRecord reference) ∧
    ∀ record, access.openRecord reference = .ok record →
      ∃ index ent, entryAt attlist index = some ent ∧
        entryReference attlist ent = .ok reference ∧
        ∀ found, findEntry record attlist ent ≠ .ok found

theorem not_refused_of_passes
    {access : FileAccess} {record attlist : Bytes} {reference : Nat}
    (opened : access.openRecord reference = .ok record)
    (passes : ∀ index ent, entryAt attlist index = some ent →
      Passes reference record attlist ent) : ¬ Refused access attlist reference := by
  rintro ⟨-, refused⟩
  obtain ⟨index, ent, here, read, missing⟩ := refused record opened
  obtain ⟨refers, readAgain, found⟩ := passes index ent here
  rw [read] at readAgain
  obtain ⟨given, isFound⟩ := found (Except.ok.inj readAgain).symm
  exact missing given isFound

/-- The second pass over a record that has been opened. -/
theorem walkOthers_of_opened
    {σ : Type} {access : FileAccess} {record attlist : Bytes} {func : Visitor σ} {turns : Nat}
    {reference : Nat} (opened : access.openRecord reference = .ok record) (rest : List Nat)
    (state : σ) :
    walkOthers access attlist func turns (reference :: rest) state =
      walkList attlist (visitOther reference record attlist func) turns 0 attlist.length state >>=
        fun called =>
          if called.1 = false then .ok (false, called.2)
          else walkOthers access attlist func turns rest called.2 := by
  rw [walkOthers, opened]
  rfl

/-- The second pass ends if a record that does not open in time comes after a refused one. -/
theorem halts_walkOthers
    {σ : Type} {access : FileAccess} {attlist : Bytes} {func : Visitor σ}
    (calls : ∀ state given, Halts (func state given)) (nonempty : attlist ≠ [])
    (noZero : ∀ index ent, entryAt attlist index = some ent → entryLength attlist ent ≠ .ok 0)
    {turns : Nat} (enough : attlist.length < turns) {others : List Nat}
    (opens : ∀ before reference after, others = before ++ reference :: after →
      ¬ Halts (access.openRecord reference) → ∃ earlier ∈ before, Refused access attlist earlier)
    (state : σ) : Halts (walkOthers access attlist func turns others state) := by
  induction others generalizing state with
  | nil => exact halts_ok _
  | cons reference rest ih =>
    have opensFirst : Halts (access.openRecord reference) := by
      by_contra running
      obtain ⟨earlier, inNil, -⟩ := opens [] reference rest rfl running
      cases inNil
    refine opensFirst.bind fun record opened => Halts.bind ?_ fun walked walkedOk => ?_
    · exact halts_walkList (fun _ => True)
        (halts_visitOther calls reference record attlist) (fun _ _ _ _ => trivial)
        (fun index ent here zeroLength => absurd zeroLength (noZero index ent here))
        (entryAt_zero attlist) (fun _ _ _ _ => trivial) (List.length_pos_iff.mpr nonempty)
        (by omega) state
    · refine halts_ite (fun _ => halts_ok _) fun goOn => ih (fun before other after split running => ?_) _
      obtain ⟨earlier, known, refused⟩ :=
        opens (reference :: before) other after (by rw [split]; rfl) running
      rcases List.mem_cons.mp known with rfl | inRest
      · have passed : walked = (true, walked.2) := Prod.ext (by simpa using goOn) rfl
        rw [passed] at walkedOk
        have all := walkList_passes (Passes earlier record attlist)
          (fun state ent next => passes_of_visitOther) (entryAt_zero attlist)
          (List.length_pos_iff.mpr nonempty) walkedOk
        exact absurd refused
          (not_refused_of_passes opened fun index ent => all index (Nat.zero_le _) ent)
      · exact ⟨earlier, inRest, refused⟩

/-! ## A function that always goes on -/

/-- The function that is willing to see every attribute record. -/
def keepGoing : Visitor Unit :=
  fun state _ => .ok (true, state)

theorem Halts.of_bind
    {α β : Type} {walk : Walk α} {next : α → Walk β} (halts : Halts (walk >>= next)) :
    Halts walk := by
  cases walk with
  | error stop =>
    intro running
    exact halts (congrArg Except.error (Except.error.inj running))
  | ok value => exact halts_ok value

theorem visitEntry_keepGoing
    {record attlist : Bytes} {ent : Nat}
    (finds : ∃ found, findEntry record attlist ent = .ok found) (state : Unit) :
    visitEntry record attlist keepGoing state ent = .ok (true, state) := by
  obtain ⟨found, read⟩ := finds
  rw [visitEntry, read]
  cases found with
  | none => rfl
  | some given => rfl

theorem visitBase_keepGoing
    {inode : Nat} {record attlist : Bytes} {ent : Nat}
    (passes : Passes inode record attlist ent) (state : Unit × List Nat) :
    ∃ next, visitBase inode record attlist keepGoing state ent = .ok (true, next) := by
  obtain ⟨reference, read, found⟩ := passes
  rw [visitBase, read]
  by_cases own : reference = inode
  · refine ⟨(state.1, state.2), ?_⟩
    show (if reference = inode then _ else _) = _
    rw [if_pos own, visitEntry_keepGoing (found own)]
    rfl
  · refine ⟨(state.1, if reference ∈ state.2 then state.2 else state.2 ++ [reference]), ?_⟩
    show (if reference = inode then _ else _) = _
    rw [if_neg own]
    rfl

theorem visitOther_keepGoing
    {reference : Nat} {record attlist : Bytes} {ent : Nat}
    (passes : Passes reference record attlist ent) (state : Unit) :
    ∃ next, visitOther reference record attlist keepGoing state ent = .ok (true, next) := by
  obtain ⟨refers, read, found⟩ := passes
  refine ⟨state, ?_⟩
  rw [visitOther, read]
  show (if refers = reference then _ else _) = _
  by_cases own : refers = reference
  · rw [if_pos own, visitEntry_keepGoing (found own)]
  · rw [if_neg own]
    rfl

theorem Passes.exists_entryLength
    {inode : Nat} {record attlist : Bytes} {ent : Nat} (passes : Passes inode record attlist ent) :
    ∃ length, entryLength attlist ent = .ok length := by
  obtain ⟨reference, read, -⟩ := passes
  exact exists_entryLength_of_reference read

/-- If the second pass ends, a record that does not open in time comes after a refused one. -/
theorem refused_of_halts_walkOthers
    {access : FileAccess} {attlist : Bytes} (nonempty : attlist ≠ [])
    (refer : ∀ index ent, entryAt attlist index = some ent →
      ∃ reference, entryReference attlist ent = .ok reference)
    {turns : Nat} {before after : List Nat} {reference : Nat}
    (running : ¬ Halts (access.openRecord reference))
    (ends : Halts (walkOthers access attlist keepGoing turns (before ++ reference :: after) ())) :
    ∃ earlier ∈ before, Refused access attlist earlier := by
  induction before with
  | nil => exact absurd (Halts.of_bind ends) running
  | cons first before ih =>
    have opensFirst : Halts (access.openRecord first) := Halts.of_bind ends
    by_cases refused : Refused access attlist first
    · exact ⟨first, List.mem_cons_self, refused⟩
    · have notAll : ∃ record, access.openRecord first = .ok record ∧
          ∀ index ent, entryAt attlist index = some ent → Passes first record attlist ent := by
        by_contra missing
        refine refused ⟨opensFirst, fun record opened => ?_⟩
        by_contra found
        refine missing ⟨record, opened, fun index ent here => ?_⟩
        obtain ⟨refers, read⟩ := refer index ent here
        refine ⟨refers, read, ?_⟩
        rintro rfl
        by_contra lost
        exact found ⟨index, ent, here, read, fun given isFound => lost ⟨given, isFound⟩⟩
      obtain ⟨record, opened, passes⟩ := notAll
      have walked := walkList_succeeds (Passes first record attlist)
        (fun state ent good => visitOther_keepGoing good state)
        (fun ent good => good.exists_entryLength) (entryAt_zero attlist)
        (List.length_pos_iff.mpr nonempty) (fun index _ ent => passes index ent) turns ()
      rw [Nat.sub_zero] at walked
      rw [List.cons_append, walkOthers_of_opened opened] at ends
      rcases walked with runs | ⟨final, ended⟩
      · rw [runs] at ends
        exact absurd rfl ends
      · rw [ended] at ends
        obtain ⟨earlier, known, isRefused⟩ := ih ends
        exact ⟨earlier, List.mem_cons_of_mem _ known, isRefused⟩

/-! ## The walk -/

/-- The attribute list of a file; it is empty if there is none. -/
def readAttributeList (access : FileAccess) (record : Bytes) : Walk Bytes := do
  attributeList access record (record.length + 1) (← firstAttributeOffset record)

theorem loopThroughAtts_eq
    {σ : Type} (access : FileAccess) (inode : Nat) (record : Bytes) (turns : Nat)
    (func : Visitor σ) (state : σ) :
    loopThroughAtts access inode record turns func state =
      readAttributeList access record >>= fun attlist =>
        if attlist ≠ [] then
          walkList attlist (visitBase inode record attlist func) turns 0 attlist.length
            (state, []) >>= fun called =>
              if called.1 = false then .ok (false, called.2.1)
              else walkOthers access attlist func turns called.2.2 called.2.1
        else firstAttributeOffset record >>= fun first =>
          walkRecord record func (record.length + 1) first state := by
  rw [readAttributeList, bind_assoc]
  rfl

/--
The loops over a list end: an entry of length zero comes after one that the
first pass does not get past, and a record that does not open in time after one
that the second pass does not get past.
-/
structure ListEnds (access : FileAccess) (inode : Nat) (record attlist : Bytes) : Prop where
  entries : ∀ index ent, entryAt attlist index = some ent → entryLength attlist ent = .ok 0 →
    ∃ earlier ≤ index, ∃ other, entryAt attlist earlier = some other ∧
      ¬ Passes inode record attlist other
  records : ∀ index reference, RefersAt attlist inode index reference →
    ¬ Halts (access.openRecord reference) →
      (∃ other ent, entryAt attlist other = some ent ∧ ¬ Passes inode record attlist ent) ∨
      ∃ earlier < index, ∃ other, RefersAt attlist inode earlier other ∧
        Refused access attlist other

/-- The walk returns or throws, whatever the function answers. -/
def WalkEnds (access : FileAccess) (inode : Nat) (record : Bytes) : Prop :=
  ∀ (σ : Type) (func : Visitor σ) (state : σ), (∀ state given, Halts (func state given)) →
    ∃ turns, Halts (loopThroughAtts access inode record turns func state)

theorem halts_of_listEnds
    {access : FileAccess} {inode : Nat} {record attlist : Bytes} (nonempty : attlist ≠ [])
    (ends : ListEnds access inode record attlist) {σ : Type} {func : Visitor σ}
    (calls : ∀ state given, Halts (func state given)) (state : σ) {turns : Nat}
    (enough : attlist.length < turns) :
    Halts (walkList attlist (visitBase inode record attlist func) turns 0 attlist.length
      (state, []) >>= fun called =>
        if called.1 = false then .ok (false, called.2.1)
        else walkOthers access attlist func turns called.2.2 called.2.1) := by
  have positive := List.length_pos_iff.mpr nonempty
  refine Halts.bind ?_ fun called walked => halts_ite (fun _ => halts_ok _) fun goOn => ?_
  · exact halts_walkList (Passes inode record attlist)
      (halts_visitBase calls inode record attlist)
      (fun state ent next => passes_of_visitBase) ends.entries (entryAt_zero attlist)
      (fun _ less => absurd less (Nat.not_lt_zero _)) positive (by omega) (state, [])
  · have passed : called = (true, called.2.1, called.2.2) :=
      Prod.ext (by simpa using goOn) rfl
    rw [passed] at walked
    have passes : ∀ index ent, entryAt attlist index = some ent → Passes inode record attlist ent :=
      fun index ent => walkList_passes (Passes inode record attlist)
        (fun state ent next => passes_of_visitBase) (entryAt_zero attlist) positive walked index
        (Nat.zero_le _) ent
    obtain ⟨count, -, noted⟩ := walkList_visitBase_noted (entryAt_zero attlist) positive walked
    refine halts_walkOthers calls nonempty ?_ enough ?_ _
    · intro index ent here zeroLength
      obtain ⟨earlier, -, other, found, stops⟩ := ends.entries index ent here zeroLength
      exact stops (passes earlier other found)
    · intro before reference after split running
      rw [noted] at split
      obtain ⟨first, -, refers, earlierNoted⟩ := notedUpTo_of_split split
      rcases ends.records first reference refers running with
        ⟨other, ent, found, stops⟩ | ⟨earlier, less, other, refersOther, refused⟩
      · exact absurd (passes other ent found) stops
      · exact ⟨other, earlierNoted earlier less other refersOther, refused⟩

theorem loopThroughAtts_of_list
    {σ : Type} {access : FileAccess} {inode : Nat} {record attlist : Bytes} {turns : Nat}
    {func : Visitor σ} {state : σ} (listed : readAttributeList access record = .ok attlist)
    (nonempty : attlist ≠ []) :
    loopThroughAtts access inode record turns func state =
      walkList attlist (visitBase inode record attlist func) turns 0 attlist.length
        (state, []) >>= fun called =>
          if called.1 = false then .ok (false, called.2.1)
          else walkOthers access attlist func turns called.2.2 called.2.1 := by
  rw [loopThroughAtts_eq, listed]
  exact if_pos nonempty

/-- An entry of length zero that the first pass gets to keeps the walk going for ever. -/
theorem loopThroughAtts_runs
    {access : FileAccess} {inode : Nat} {record attlist : Bytes}
    (listed : readAttributeList access record = .ok attlist) (nonempty : attlist ≠ [])
    {index ent : Nat} (here : entryAt attlist index = some ent)
    (zeroLength : entryLength attlist ent = .ok 0)
    (passes : ∀ earlier ≤ index, ∀ other, entryAt attlist earlier = some other →
      Passes inode record attlist other) (turns : Nat) :
    loopThroughAtts access inode record turns keepGoing () = .error .running := by
  have runs := walkList_runs (Passes inode record attlist)
    (fun state ent good => visitBase_keepGoing good state) (fun ent good => good.exists_entryLength)
    here zeroLength passes (Nat.zero_le _) (entryAt_zero attlist)
    (List.length_pos_iff.mpr nonempty) turns ((), [])
  rw [Nat.sub_zero] at runs
  rw [loopThroughAtts_of_list listed nonempty, runs]
  rfl

/-- A walk that ends has a list whose loops end. -/
theorem listEnds_of_halts
    {access : FileAccess} {inode : Nat} {record attlist : Bytes}
    (listed : readAttributeList access record = .ok attlist) (nonempty : attlist ≠ [])
    {turns : Nat} (ends : Halts (loopThroughAtts access inode record turns keepGoing ())) :
    ListEnds access inode record attlist := by
  refine ⟨fun index ent here zeroLength => ?_, fun index reference refers running => ?_⟩
  · by_contra allPass
    refine ends (loopThroughAtts_runs listed nonempty here zeroLength ?_ turns)
    intro earlier atMost other found
    by_contra stops
    exact allPass ⟨earlier, atMost, other, found, stops⟩
  · by_contra neither
    obtain ⟨allPass, noRefused⟩ := not_or.mp neither
    have passes : ∀ index ent, entryAt attlist index = some ent →
        Passes inode record attlist ent := by
      intro other ent found
      by_contra stops
      exact allPass ⟨other, ent, found, stops⟩
    have positive := List.length_pos_iff.mpr nonempty
    rw [loopThroughAtts_of_list listed nonempty] at ends
    have walked := walkList_succeeds (Passes inode record attlist)
      (fun state ent good => visitBase_keepGoing good state)
      (fun ent good => good.exists_entryLength) (entryAt_zero attlist) positive
      (fun index _ ent => passes index ent) turns ((), [])
    rw [Nat.sub_zero] at walked
    rcases walked with runs | ⟨⟨final, others⟩, ended⟩
    · rw [runs] at ends
      exact ends rfl
    · obtain ⟨count, gone, noted⟩ := walkList_visitBase_noted (entryAt_zero attlist) positive ended
      rw [ended] at ends
      have within : index < count := by
        by_contra beyond
        obtain ⟨ent, here, -⟩ := refers
        rw [entryAt_of_none gone (by omega)] at here
        cases here
      obtain ⟨before, after, split, earlier⟩ := exists_split_notedUpTo within refers
      replace ends : Halts (walkOthers access attlist keepGoing turns others final) := ends
      rw [noted, split] at ends
      obtain ⟨other, known, refused⟩ := refused_of_halts_walkOthers nonempty
        (fun index ent here => ⟨_, (passes index ent here).choose_spec.1⟩) running ends
      obtain ⟨first, less, refersOther⟩ := earlier other known
      exact noRefused ⟨first, less, other, refersOther, refused⟩

/--
Exactly when the walk ends: reading a list that is not resident ends, and so do
the loops over the entries of the list.
-/
theorem walkEnds_iff (access : FileAccess) (inode : Nat) (record : Bytes) :
    WalkEnds access inode record ↔
      (∀ first att, firstAttributeOffset record = .ok first →
        NonresidentListAt record first att → Halts (access.readList record att)) ∧
      ∀ attlist, readAttributeList access record = .ok attlist → attlist ≠ [] →
        ListEnds access inode record attlist := by
  constructor
  · intro walk
    obtain ⟨turns, ends⟩ := walk Unit keepGoing () fun _ _ => halts_ok _
    refine ⟨fun first att located found => ?_, fun attlist listed nonempty =>
      listEnds_of_halts listed nonempty ends⟩
    rw [loopThroughAtts_eq] at ends
    have reads := ends.of_bind
    rw [readAttributeList, located] at reads
    exact halts_readList reads found
  · rintro ⟨reads, lists⟩ σ func state calls
    have search : Halts (readAttributeList access record) :=
      (halts_field _ _ _).bind fun first located =>
        halts_attributeList (fun last => reads first last located) (Nat.succ_pos _) (by omega)
    cases listed : readAttributeList access record with
    | error stop =>
      refine ⟨0, ?_⟩
      rw [loopThroughAtts_eq]
      exact search.bind fun attlist found => by rw [listed] at found; cases found
    | ok attlist =>
      refine ⟨attlist.length + 1, ?_⟩
      by_cases nonempty : attlist ≠ []
      · rw [loopThroughAtts_of_list listed nonempty]
        exact halts_of_listEnds nonempty (lists attlist listed nonempty) calls state
          (Nat.lt_succ_self _)
      · rw [loopThroughAtts_eq, listed]
        show Halts (if attlist ≠ [] then _ else _)
        rw [if_neg nonempty]
        exact (halts_field _ _ _).bind fun first _ =>
          halts_walkRecord calls (Nat.succ_pos _) (by omega) state

/-- A list with one entry, of length zero, for an attribute of the file record 5. -/
def zeroLengthList : Bytes :=
  le 4 0x80 ++ le 2 0 ++ le 1 0 ++ le 1 0x1a ++ le 8 0 ++ le 8 5 ++ le 2 2 ++ le 6 0

/-- A resident attribute list. -/
def listAttribute (attlist : Bytes) : Bytes :=
  le 4 attributeListType ++ le 2 (24 + attlist.length) ++ List.replicate 10 0 ++
    le 4 attlist.length ++ le 2 24 ++ le 2 0 ++ attlist

/-- A file record with the given attribute records. -/
def recordWith (atts : Bytes) : Bytes :=
  List.replicate 20 0 ++ le 2 56 ++ List.replicate 34 0 ++ atts ++ le 4 endOfAttributes

/-- Access to a volume without extension records. -/
def noExtensions : FileAccess where
  openRecord _ := .error .outside
  readList _ _ := .error .outside

theorem loopThroughAtts_zero_length :
    (∀ inode, Halts (noExtensions.openRecord inode)) ∧
      (∀ record att, Halts (noExtensions.readList record att)) ∧
      ¬ WalkEnds noExtensions 5 (recordWith (listAttribute zeroLengthList)) := by
  have stops : Halts (.error .outside : Walk Bytes) := fun running => by cases running
  refine ⟨fun _ => stops, fun _ _ => stops, fun walk => ?_⟩
  obtain ⟨turns, ends⟩ := walk Unit keepGoing () fun _ _ => halts_ok _
  have listed : readAttributeList noExtensions (recordWith (listAttribute zeroLengthList)) =
      .ok zeroLengthList := by
    decide +kernel
  refine ends (loopThroughAtts_runs listed (by decide +kernel) (entryAt_zero zeroLengthList)
    (by decide +kernel) ?_ turns)
  rintro earlier atMost other found
  obtain rfl : earlier = 0 := by omega
  obtain rfl := Option.some.inj found
  exact ⟨5, by decide +kernel, fun _ => ⟨none, by decide +kernel⟩⟩

end Ntfs2Btrfs
