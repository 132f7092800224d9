import Mathlib.Data.List.Induction
import Mathlib.Data.List.Pairwise
import Mathlib.Data.List.Perm.Basic
import Mathlib.Data.List.Perm.Subperm
import Mathlib.Logic.Relation
import PatternAutomata.Proofs.Dfa.Tables

/-!
# Refining partitions

States are alike if they do the same with every word.  A partition separates
states if states in different groups are not alike, and refining keeps this,
since a character that splits a group tells its parts apart.  When no character
splits a group any more, states in one group are alike.  So the groups of the
stable partition are the classes of states that are alike.
-/

namespace PatternAutomata.Dfa

variable {dfa : Dfa} {partition : Partition} {group : Group}
  {character : Char}

/-- The states do the same with every word. -/
def Alike (dfa : Dfa) (first second : Nat) : Prop :=
  ∀ word, dfa.outcome? first word = dfa.outcome? second word

theorem Alike.symm {first second : Nat} (alike : dfa.Alike first second) :
    dfa.Alike second first :=
  fun word => (alike word).symm

theorem Alike.isFinal_eq {first second : Nat}
    (alike : dfa.Alike first second) :
    dfa.isFinal first = dfa.isFinal second :=
  Option.some.inj (alike [])

theorem outcome?_cons (dfa : Dfa) (source : Nat) (character : Char)
    (word : List Char) :
    dfa.outcome? source (character :: word) =
      (dfa.target? source character).bind fun target =>
        dfa.outcome? target word := by
  rw [outcome?, run?_cons, Option.map_bind]
  rfl

/-- The states do the same with every word, each in its own automaton. -/
def Corresponds (dfa other : Dfa) (first second : Nat) : Prop :=
  ∀ word, dfa.outcome? first word = other.outcome? second word

/-- A character leads from corresponding states to corresponding states. -/
theorem Corresponds.target? {other : Dfa} {first second : Nat}
    (same : dfa.Corresponds other first second) (character : Char) :
    dfa.target? first character = none ∧
        other.target? second character = none ∨
      ∃ target reached, dfa.target? first character = some target ∧
        other.target? second character = some reached ∧
        dfa.Corresponds other target reached := by
  have after (word : List Char) := same (character :: word)
  simp only [outcome?_cons] at after
  have empty := after []
  cases found : dfa.target? first character with
  | none =>
      left
      refine ⟨rfl, ?_⟩
      rw [found] at empty
      cases reached : other.target? second character with
      | none => rfl
      | some target =>
          rw [reached] at empty
          exact nomatch empty
  | some target =>
      right
      rw [found] at empty
      cases step : other.target? second character with
      | none =>
          rw [step] at empty
          exact nomatch empty
      | some reached =>
          refine ⟨target, reached, rfl, rfl, ?_⟩
          intro word
          have both := after word
          rw [found, step] at both
          exact both

/-- A character leads from states that are alike to states that are alike. -/
theorem Alike.target? {first second : Nat} (alike : dfa.Alike first second)
    (character : Char) :
    dfa.target? first character = none ∧
        dfa.target? second character = none ∨
      ∃ target other, dfa.target? first character = some target ∧
        dfa.target? second character = some other ∧
        dfa.Alike target other :=
  Corresponds.target? alike character

/-- No state of one group is alike to a state of the other. -/
def Apart (dfa : Dfa) (group other : Group) : Prop :=
  ∀ first ∈ group, ∀ second ∈ other, ¬dfa.Alike first second

instance (dfa : Dfa) : Std.Symm dfa.Apart where
  symm _ _ apart second secondInside first firstInside alike :=
    apart first firstInside second secondInside alike.symm

/-- Groups of the partition have members, they cover the states, they are
uniform as to acceptance, and no state is alike to one in another group. -/
structure Separates (dfa : Dfa) (partition : Partition) : Prop where
  nonempty : ∀ group ∈ partition, ∃ id, id ∈ group
  covers : ∀ id, (∃ group ∈ partition, id ∈ group) ↔ id < dfa.size
  final : ∀ group ∈ partition, ∀ first ∈ group, ∀ second ∈ group,
    dfa.isFinal first = dfa.isFinal second
  apart : partition.Pairwise dfa.Apart

/-- No character splits a group of the partition. -/
def IsStable (dfa : Dfa) (partition : Partition) : Prop :=
  ∀ group ∈ partition, ∀ character ∈ dfa.alphabet,
    ∀ first ∈ group, ∀ second ∈ group,
      dfa.targetPlace partition character first =
        dfa.targetPlace partition character second

/-- Refining a partition stops at another one. -/
structure StopsAt (dfa : Dfa) (partition last : Partition) : Prop where
  /-- The last partition comes about by refining. -/
  refined : Relation.ReflTransGen
    (fun earlier later => dfa.refine? earlier = some later) partition last
  /-- No group of the last partition can be split. -/
  final : dfa.refine? last = none

/-! ## Places -/

theorem IsConsistent.targetPlace_eq (consistent : dfa.IsConsistent)
    (partition : Partition) (character : Char) {source : Nat}
    (inside : source < dfa.size) :
    dfa.targetPlace partition character source =
      match (dfa.target? source character).bind fun target =>
        partition.findIdx? fun group => target ∈ group with
      | some place => place + 1
      | none => 0 := by
  have place :
      ((dfa.structuralTarget? source character).bind fun members =>
          (dfa.idOf? members).bind fun target =>
            partition.findIdx? fun group => target ∈ group) =
        (dfa.target? source character).bind fun target =>
          partition.findIdx? fun group => target ∈ group := by
    rw [consistent.structuralTarget?_eq inside]
    cases found : dfa.target? source character with
    | none => rfl
    | some target =>
        have inside := (consistent.lt_of_target found).2
        rw [Option.map_some, Option.bind_some, Option.bind_some,
          consistent.idOf?_members inside, Option.bind_some]
  rw [← place]
  rfl

namespace Separates

theorem lt_size (separates : dfa.Separates partition)
    (member : group ∈ partition) {id : Nat} (inside : id ∈ group) :
    id < dfa.size :=
  (separates.covers id).1 ⟨group, member, inside⟩

theorem eq_nil (separates : dfa.Separates partition)
    (none_there : dfa.size = 0) : partition = [] := by
  rw [List.eq_nil_iff_forall_not_mem]
  intro group member
  rcases separates.nonempty group member with ⟨id, inside⟩
  exact Nat.not_lt_zero id (none_there ▸ separates.lt_size member inside)

theorem perm {other : Partition} (separates : dfa.Separates partition)
    (perm : partition.Perm other) : dfa.Separates other where
  nonempty group member := separates.nonempty group (perm.mem_iff.2 member)
  covers id := by
    rw [← separates.covers id]
    simp only [perm.mem_iff]
  final group member := separates.final group (perm.mem_iff.2 member)
  apart := (perm.pairwise_iff fun apart => Std.Symm.symm _ _ apart).1
    separates.apart

/-- States that are alike are in the same group. -/
theorem group_eq_of_alike (separates : dfa.Separates partition)
    {other : Group} (member : group ∈ partition)
    (otherMember : other ∈ partition) {first second : Nat}
    (inside : first ∈ group) (otherInside : second ∈ other)
    (alike : dfa.Alike first second) : group = other := by
  by_contra different
  exact separates.apart.forall member otherMember different first inside
    second otherInside alike

theorem mem_iff_of_alike (separates : dfa.Separates partition)
    (member : group ∈ partition) {first second : Nat}
    (firstInside : first < dfa.size) (secondInside : second < dfa.size)
    (alike : dfa.Alike first second) : first ∈ group ↔ second ∈ group := by
  constructor
  · intro inside
    rcases (separates.covers second).2 secondInside with
      ⟨other, otherMember, otherInside⟩
    rw [separates.group_eq_of_alike member otherMember inside otherInside
      alike]
    exact otherInside
  · intro inside
    rcases (separates.covers first).2 firstInside with
      ⟨other, otherMember, otherInside⟩
    rw [separates.group_eq_of_alike member otherMember inside otherInside
      alike.symm]
    exact otherInside

theorem findIdx?_eq_of_alike (separates : dfa.Separates partition)
    {first second : Nat} (firstInside : first < dfa.size)
    (secondInside : second < dfa.size) (alike : dfa.Alike first second) :
    (partition.findIdx? fun group => first ∈ group) =
      partition.findIdx? fun group => second ∈ group := by
  have same (place : Nat) (bound : place < partition.length) :
      first ∈ partition[place] ↔ second ∈ partition[place] :=
    separates.mem_iff_of_alike (List.getElem_mem bound) firstInside
      secondInside alike
  ext place
  simp only [List.findIdx?_eq_some_iff_getElem, decide_eq_true_eq]
  constructor
  · rintro ⟨bound, inside, before⟩
    exact ⟨bound, (same place bound).1 inside,
      fun earlier less found =>
        before earlier less ((same earlier _).2 found)⟩
  · rintro ⟨bound, inside, before⟩
    exact ⟨bound, (same place bound).2 inside,
      fun earlier less found =>
        before earlier less ((same earlier _).1 found)⟩

/-- No character leads from states that are alike to different places. -/
theorem targetPlace_eq_of_alike (separates : dfa.Separates partition)
    (consistent : dfa.IsConsistent) (character : Char) {first second : Nat}
    (firstInside : first < dfa.size) (secondInside : second < dfa.size)
    (alike : dfa.Alike first second) :
    dfa.targetPlace partition character first =
      dfa.targetPlace partition character second := by
  rw [consistent.targetPlace_eq partition character firstInside,
    consistent.targetPlace_eq partition character secondInside]
  rcases alike.target? character with
    ⟨missing, otherMissing⟩ | ⟨target, other, found, otherFound, alike⟩
  · rw [missing, otherMissing]
  · rw [found, otherFound, Option.bind_some, Option.bind_some,
      separates.findIdx?_eq_of_alike (consistent.lt_of_target found).2
        (consistent.lt_of_target otherFound).2 alike]

end Separates

/-! ## Dividing a group -/

/-- The classes consist of the sources with equal places. -/
structure IsClassified (place : Nat → Nat) (sources : List Nat)
    (classes : Std.ExtTreeMap Nat Group) : Prop where
  mem_iff : ∀ key id,
    id ∈ classes[key]?.getD ∅ ↔ id ∈ sources ∧ place id = key
  nonempty : ∀ {key : Nat} {part : Group}, classes[key]? = some part →
    ∃ id, id ∈ part

theorem isClassified_foldl (place : Nat → Nat) (sources : List Nat) :
    IsClassified place sources
      (sources.foldl (fun classes source =>
        classes.alter (place source) fun others =>
          some ((others.getD ∅).insert source)) ∅) := by
  induction sources using List.reverseRecOn with
  | nil => exact ⟨by simp, by simp⟩
  | append_singleton front source classified =>
      rw [List.foldl_append, List.foldl_cons, List.foldl_nil]
      generalize List.foldl _ _ front = classes at classified ⊢
      constructor
      · intro key id
        rw [Std.ExtTreeMap.getElem?_alter]
        have before := classified.mem_iff key id
        split
        · next same =>
            have same := Std.LawfulEqCmp.eq_of_compare same
            subst same
            simp only [Option.getD_some, Std.ExtTreeSet.mem_insert,
              Std.LawfulEqCmp.compare_eq_iff_eq, before, List.mem_append,
              List.mem_singleton]
            grind
        · next different =>
            rw [Std.LawfulEqCmp.compare_eq_iff_eq] at different
            rw [before, List.mem_append, List.mem_singleton]
            grind
      · intro key part found
        rw [Std.ExtTreeMap.getElem?_alter] at found
        split at found
        · cases found
          exact ⟨source, Std.ExtTreeSet.mem_insert_self⟩
        · exact classified.nonempty found

/-- The parts of a divided group are the nonempty sets of its states with
equal places. -/
theorem mem_divide {part : Group}
    (member : part ∈ dfa.divide partition group character) :
    ∃ place, (∃ id, id ∈ part) ∧ ∀ id, id ∈ part ↔
      id ∈ group ∧ dfa.targetPlace partition character id = place := by
  have classified := isClassified_foldl
    (dfa.targetPlace partition character) group.toList
  rcases List.mem_map.1 member with ⟨⟨place, found⟩, entry, rfl⟩
  rw [Std.ExtTreeMap.mem_toList_iff_getElem?_eq_some] at entry
  refine ⟨place, classified.nonempty entry, ?_⟩
  intro id
  have members := classified.mem_iff place id
  rw [entry, Std.ExtTreeSet.mem_toList] at members
  exact members

theorem exists_mem_divide (dfa : Dfa) (partition : Partition)
    (character : Char) {id : Nat} (inside : id ∈ group) :
    ∃ part ∈ dfa.divide partition group character, id ∈ part := by
  have classified := isClassified_foldl
    (dfa.targetPlace partition character) group.toList
  have member := (classified.mem_iff
    (dfa.targetPlace partition character id) id).2
    ⟨Std.ExtTreeSet.mem_toList.2 inside, rfl⟩
  rw [divide]
  generalize List.foldl _ _ group.toList = classes at member ⊢
  cases found : classes[dfa.targetPlace partition character id]? with
  | none =>
      rw [found] at member
      exact absurd member Std.ExtTreeSet.not_mem_empty
  | some part =>
      rw [found] at member
      refine ⟨part, ?_, member⟩
      rw [← Std.ExtTreeMap.mem_toList_iff_getElem?_eq_some] at found
      exact List.mem_map_of_mem found

/-- Dividing a group does not change what is in it. -/
theorem exists_mem_divide_iff (dfa : Dfa) (partition : Partition)
    (group : Group) (character : Char) (id : Nat) :
    (∃ part ∈ dfa.divide partition group character, id ∈ part) ↔
      id ∈ group := by
  constructor
  · rintro ⟨part, member, inside⟩
    rcases mem_divide member with ⟨place, -, mem_iff⟩
    exact ((mem_iff id).1 inside).1
  · exact dfa.exists_mem_divide partition character

theorem pairwise_divide (dfa : Dfa) (partition : Partition) (group : Group)
    (character : Char) :
    (dfa.divide partition group character).Pairwise fun part other =>
      ∀ first ∈ part, ∀ second ∈ other,
        dfa.targetPlace partition character first ≠
          dfa.targetPlace partition character second := by
  have classified := isClassified_foldl
    (dfa.targetPlace partition character) group.toList
  rw [divide, List.pairwise_map]
  apply Std.ExtTreeMap.distinct_keys_toList.imp_of_mem
  rintro ⟨place, part⟩ ⟨otherPlace, other⟩ member otherMember distinct
  rw [Std.LawfulEqCmp.compare_eq_iff_eq] at distinct
  rw [Std.ExtTreeMap.mem_toList_iff_getElem?_eq_some] at member otherMember
  intro first firstInside second secondInside
  have firstPlace := (classified.mem_iff place first).1
    (by rw [member]; exact firstInside)
  have secondPlace := (classified.mem_iff otherPlace second).1
    (by rw [otherMember]; exact secondInside)
  rw [firstPlace.2, secondPlace.2]
  exact distinct

theorem eq_of_length_le_one {α : Type} {list : List α}
    (short : list.length ≤ 1) {first second : α} (member : first ∈ list)
    (otherMember : second ∈ list) : first = second := by
  match list with
  | [] => exact nomatch member
  | [only] =>
      rw [List.mem_singleton.1 member, List.mem_singleton.1 otherMember]
  | _ :: _ :: _ =>
      simp at short

/-- A group that is not divided leads to one place. -/
theorem targetPlace_eq_of_length_divide_le
    (undivided : (dfa.divide partition group character).length ≤ 1)
    {first second : Nat} (firstInside : first ∈ group)
    (secondInside : second ∈ group) :
    dfa.targetPlace partition character first =
      dfa.targetPlace partition character second := by
  rcases dfa.exists_mem_divide partition character firstInside with
    ⟨part, member, firstMember⟩
  rcases dfa.exists_mem_divide partition character secondInside with
    ⟨other, otherMember, secondMember⟩
  have same := eq_of_length_le_one undivided member otherMember
  subst same
  rcases mem_divide member with ⟨place, -, mem_iff⟩
  rw [((mem_iff first).1 firstMember).2, ((mem_iff second).1 secondMember).2]

/-! ## Splitting and refining -/

theorem exists_of_split?_eq_some {parts : List Group}
    (split : dfa.split? partition group = some parts) :
    ∃ character, parts = dfa.divide partition group character ∧
      1 < parts.length := by
  rw [split?] at split
  split at split
  · exact nomatch split
  · rcases List.exists_of_findSome?_eq_some split with
      ⟨character, -, found⟩
    dsimp only at found
    split at found
    · next divided =>
        cases found
        exact ⟨character, rfl, divided⟩
    · exact nomatch found

theorem targetPlace_eq_of_split?_eq_none
    (whole : dfa.split? partition group = none)
    (known : character ∈ dfa.alphabet) {first second : Nat}
    (firstInside : first ∈ group) (secondInside : second ∈ group) :
    dfa.targetPlace partition character first =
      dfa.targetPlace partition character second := by
  rw [split?] at whole
  split at whole
  · next small =>
      rw [← Std.ExtTreeSet.length_toList] at small
      rw [eq_of_length_le_one (Nat.le_of_lt_succ small)
        (Std.ExtTreeSet.mem_toList.2 firstInside)
        (Std.ExtTreeSet.mem_toList.2 secondInside)]
  · have undivided := List.findSome?_eq_none_iff.1 whole character known
    dsimp only at undivided
    split at undivided
    · exact nomatch undivided
    · next short =>
        exact targetPlace_eq_of_length_divide_le (Nat.le_of_not_lt short)
          firstInside secondInside

/-- A refinement takes one group out and puts the parts it is split into at the
end. -/
theorem exists_place_of_refine?_eq_some {finer : Partition}
    (refined : dfa.refine? partition = some finer) :
    ∃ place group parts, partition[place]? = some group ∧
      dfa.split? partition group = some parts ∧
      finer = partition.eraseIdx place ++ parts := by
  rcases List.exists_of_findSome?_eq_some refined with
    ⟨⟨group, place⟩, member, found⟩
  rcases Option.map_eq_some_iff.1 found with ⟨parts, split, rfl⟩
  exact ⟨place, group, parts, List.mem_zipIdx_iff_getElem?.1 member, split,
    rfl⟩

/-- A refinement replaces one group by the parts it is split into. -/
theorem exists_of_refine?_eq_some {finer : Partition}
    (refined : dfa.refine? partition = some finer) :
    ∃ group parts rest, partition.Perm (group :: rest) ∧
      dfa.split? partition group = some parts ∧ finer = rest ++ parts := by
  rcases exists_place_of_refine?_eq_some refined with
    ⟨place, group, parts, found, split, rfl⟩
  rcases List.getElem?_eq_some_iff.1 found with ⟨bound, rfl⟩
  exact ⟨partition[place], parts, partition.eraseIdx place,
    (List.getElem_cons_eraseIdx_perm bound).symm, split, rfl⟩

theorem isStable_of_refine?_eq_none
    (final : dfa.refine? partition = none) : dfa.IsStable partition := by
  intro group member character known first firstInside second secondInside
  rcases List.getElem_of_mem member with ⟨place, bound, rfl⟩
  have entry : (partition[place], place) ∈ partition.zipIdx :=
    List.mem_zipIdx_iff_getElem?.2 (List.getElem?_eq_getElem bound)
  have whole := List.findSome?_eq_none_iff.1 final _ entry
  exact targetPlace_eq_of_split?_eq_none (Option.map_eq_none_iff.1 whole)
    known firstInside secondInside

/-! ## The invariant -/

theorem IsConsistent.mem_groupWhere_iff (consistent : dfa.IsConsistent)
    (condition : State → Bool) {id : Nat} :
    id ∈ dfa.groupWhere condition ↔
      ∃ state, dfa.states[id]? = some state ∧ condition state = true := by
  rw [groupWhere, Std.ExtTreeSet.mem_ofList, List.contains_iff_mem,
    List.mem_map]
  simp only [List.mem_filter, Array.mem_toList_iff]
  constructor
  · rintro ⟨state, ⟨member, holds⟩, rfl⟩
    rcases Array.getElem?_of_mem member with ⟨place, found⟩
    rw [consistent.id_eq found]
    exact ⟨state, found, holds⟩
  · rintro ⟨state, found, holds⟩
    exact ⟨state, ⟨Array.mem_of_getElem? found, holds⟩,
      consistent.id_eq found⟩

theorem IsConsistent.mem_groupWhere_isFinal_iff
    (consistent : dfa.IsConsistent) {id : Nat} :
    id ∈ dfa.groupWhere State.isFinal ↔ dfa.isFinal id = true := by
  rw [consistent.mem_groupWhere_iff, Dfa.isFinal]
  cases dfa.states[id]? <;> simp

theorem IsConsistent.mem_groupWhere_not_isFinal_iff
    (consistent : dfa.IsConsistent) {id : Nat} :
    id ∈ dfa.groupWhere (fun state => !state.isFinal) ↔
      id < dfa.size ∧ dfa.isFinal id = false := by
  rw [consistent.mem_groupWhere_iff, Dfa.isFinal, lt_size_iff]
  cases dfa.states[id]? <;> simp

namespace Separates

/-- Accepting states are told from others by the empty word. -/
theorem initial (consistent : dfa.IsConsistent) :
    dfa.Separates dfa.initialPartition := by
  have mem_iff {group : Group} : group ∈ dfa.initialPartition ↔
      (group = dfa.groupWhere State.isFinal ∨
        group = dfa.groupWhere fun state => !state.isFinal) ∧
      group ≠ ∅ := by
    simp [initialPartition]
  constructor
  case nonempty =>
    intro group member
    exact StateSet.exists_mem (mem_iff.1 member).2
  case covers =>
    intro id
    constructor
    · rintro ⟨group, member, inside⟩
      rcases (mem_iff.1 member).1 with rfl | rfl
      · exact lt_size_of_any (consistent.mem_groupWhere_isFinal_iff.1 inside)
      · exact (consistent.mem_groupWhere_not_isFinal_iff.1 inside).1
    · intro bound
      cases final : dfa.isFinal id with
      | true =>
          have inside := consistent.mem_groupWhere_isFinal_iff.2 final
          exact ⟨_, mem_iff.2
            ⟨.inl rfl, Std.ExtTreeSet.ne_empty_of_mem inside⟩, inside⟩
      | false =>
          have inside :=
            consistent.mem_groupWhere_not_isFinal_iff.2 ⟨bound, final⟩
          exact ⟨_, mem_iff.2
            ⟨.inr rfl, Std.ExtTreeSet.ne_empty_of_mem inside⟩, inside⟩
  case final =>
    intro group member first firstInside second secondInside
    rcases (mem_iff.1 member).1 with rfl | rfl
    · rw [consistent.mem_groupWhere_isFinal_iff.1 firstInside,
        consistent.mem_groupWhere_isFinal_iff.1 secondInside]
    · rw [(consistent.mem_groupWhere_not_isFinal_iff.1 firstInside).2,
        (consistent.mem_groupWhere_not_isFinal_iff.1 secondInside).2]
  case apart =>
    apply List.Pairwise.filter
    rw [List.pairwise_pair]
    intro first firstInside second secondInside alike
    have same := alike.isFinal_eq
    rw [consistent.mem_groupWhere_isFinal_iff.1 firstInside,
      (consistent.mem_groupWhere_not_isFinal_iff.1 secondInside).2] at same
    cases same

/-- A group may be replaced by parts of it that have no alike states. -/
theorem replace {rest parts : Partition}
    (separates : dfa.Separates (group :: rest))
    (nonempty : ∀ part ∈ parts, ∃ id, id ∈ part)
    (covers : ∀ id, (∃ part ∈ parts, id ∈ part) ↔ id ∈ group)
    (apart : parts.Pairwise dfa.Apart) :
    dfa.Separates (rest ++ parts) := by
  have inside_of_part {part : Group} {id : Nat} (member : part ∈ parts)
      (inside : id ∈ part) : id ∈ group :=
    (covers id).1 ⟨part, member, inside⟩
  rcases List.pairwise_cons.1 separates.apart with ⟨others, restApart⟩
  constructor
  case nonempty =>
    intro other member
    rcases List.mem_append.1 member with member | member
    · exact separates.nonempty other (List.mem_cons_of_mem _ member)
    · exact nonempty other member
  case covers =>
    intro id
    rw [← separates.covers id, List.exists_mem_cons_iff, ← covers id]
    simp only [List.mem_append, or_and_right, exists_or]
    exact or_comm
  case final =>
    intro other member first firstInside second secondInside
    rcases List.mem_append.1 member with member | member
    · exact separates.final other (List.mem_cons_of_mem _ member) first
        firstInside second secondInside
    · exact separates.final group List.mem_cons_self
        first (inside_of_part member firstInside)
        second (inside_of_part member secondInside)
  case apart =>
    rw [List.pairwise_append]
    refine ⟨restApart, apart, ?_⟩
    intro other member part partMember first firstInside second
      secondInside alike
    exact others other member second (inside_of_part partMember secondInside)
      first firstInside alike.symm

/-- A refinement separates as well, and it has more groups. -/
theorem refine (separates : dfa.Separates partition)
    (consistent : dfa.IsConsistent) {finer : Partition}
    (refined : dfa.refine? partition = some finer) :
    dfa.Separates finer ∧ partition.length < finer.length := by
  rcases exists_of_refine?_eq_some refined with
    ⟨group, parts, rest, perm, split, rfl⟩
  rcases exists_of_split?_eq_some split with ⟨character, rfl, several⟩
  have memGroup : group ∈ partition := perm.mem_iff.2 List.mem_cons_self
  have covers := dfa.exists_mem_divide_iff partition group character
  have inside_of_part {part : Group} {id : Nat}
      (member : part ∈ dfa.divide partition group character)
      (inside : id ∈ part) : id < dfa.size :=
    separates.lt_size memGroup ((covers id).1 ⟨part, member, inside⟩)
  constructor
  · apply (separates.perm perm).replace
    · intro part member
      rcases mem_divide member with ⟨place, nonempty, -⟩
      exact nonempty
    · exact covers
    · apply (dfa.pairwise_divide partition group character).imp_of_mem
      intro part other member otherMember places first firstInside second
        secondInside alike
      apply places first firstInside second secondInside
      exact separates.targetPlace_eq_of_alike consistent character
        (inside_of_part member firstInside)
        (inside_of_part otherMember secondInside) alike
  · rw [perm.length_eq, List.length_append, List.length_cons]
    omega

/-- There are no more groups than states. -/
theorem length_le (separates : dfa.Separates partition) :
    partition.length ≤ dfa.size := by
  choose representative inside using separates.nonempty
  let states := partition.attach.map fun group =>
    representative group.1 group.2
  have nodup : states.Nodup := by
    rw [List.Nodup, List.pairwise_map]
    have apart : partition.attach.Pairwise fun group other =>
        dfa.Apart group.1 other.1 := by
      rw [← List.pairwise_map (f := Subtype.val), List.attach_map_subtype_val]
      exact separates.apart
    apply apart.imp
    intro group other apart same
    apply apart _ (inside group.1 group.2) _ (inside other.1 other.2)
    rw [same]
    exact fun _ => rfl
  have subset : states ⊆ List.range dfa.size := by
    intro id member
    rcases List.mem_map.1 member with ⟨group, -, rfl⟩
    exact List.mem_range.2 (separates.lt_size group.2 (inside group.1 group.2))
  have bound := (nodup.subperm subset).length_le
  rw [List.length_map, List.length_attach, List.length_range] at bound
  exact bound

/-- What refining comes to separates as well. -/
theorem of_refined (separates : dfa.Separates partition)
    (consistent : dfa.IsConsistent) {last : Partition}
    (refined : Relation.ReflTransGen
      (fun earlier later => dfa.refine? earlier = some later)
      partition last) :
    dfa.Separates last := by
  induction refined with
  | refl => exact separates
  | tail _ step kept => exact (kept.refine consistent step).1

/-- The rounds suffice, since each one adds a group. -/
theorem stopsAt_refineFrom (separates : dfa.Separates partition)
    (consistent : dfa.IsConsistent) {rounds : Nat}
    (enough : dfa.size < rounds + partition.length) :
    dfa.StopsAt partition (dfa.refineFrom rounds partition) := by
  induction rounds generalizing partition with
  | zero =>
      have bound := separates.length_le
      omega
  | succ rounds stops =>
      rw [Dfa.refineFrom]
      split
      · next finer step =>
          rcases separates.refine consistent step with ⟨finer, longer⟩
          rcases stops finer (by omega) with ⟨refined, final⟩
          exact ⟨.head step refined, final⟩
      · next final => exact ⟨.refl, final⟩

theorem exists_findIdx?_eq_some (separates : dfa.Separates partition)
    {id : Nat} (inside : id < dfa.size) :
    ∃ place, (partition.findIdx? fun group => id ∈ group) = some place ∧
      ∃ bound : place < partition.length, id ∈ partition[place] := by
  rcases (separates.covers id).2 inside with ⟨group, member, inGroup⟩
  have isSome : (partition.findIdx? fun group => id ∈ group).isSome = true := by
    rw [List.findIdx?_isSome, List.any_eq_true]
    exact ⟨group, member, decide_eq_true inGroup⟩
  rcases Option.isSome_iff_exists.1 isSome with ⟨place, found⟩
  rcases List.findIdx?_eq_some_iff_getElem.1 found with ⟨bound, holds, -⟩
  exact ⟨place, found, bound, of_decide_eq_true holds⟩

/-- From one group of a stable partition a character leads to one group. -/
theorem target?_of_isStable (separates : dfa.Separates partition)
    (consistent : dfa.IsConsistent) (stable : dfa.IsStable partition)
    (member : group ∈ partition) {first second : Nat}
    (firstInside : first ∈ group) (secondInside : second ∈ group)
    (character : Char) :
    dfa.target? first character = none ∧
        dfa.target? second character = none ∨
      ∃ target other, dfa.target? first character = some target ∧
        dfa.target? second character = some other ∧
        ∃ reached ∈ partition, target ∈ reached ∧ other ∈ reached := by
  by_cases known : character ∈ dfa.alphabet
  · have places := stable group member character known first firstInside
      second secondInside
    rw [consistent.targetPlace_eq partition character
        (separates.lt_size member firstInside),
      consistent.targetPlace_eq partition character
        (separates.lt_size member secondInside)] at places
    cases found : dfa.target? first character with
    | none =>
        cases otherFound : dfa.target? second character with
        | none => exact .inl ⟨rfl, rfl⟩
        | some other =>
            rcases separates.exists_findIdx?_eq_some
              (consistent.lt_of_target otherFound).2 with ⟨place, index, -⟩
            simp [found, otherFound, index] at places
    | some target =>
        rcases separates.exists_findIdx?_eq_some
          (consistent.lt_of_target found).2 with
          ⟨place, index, bound, inside⟩
        cases otherFound : dfa.target? second character with
        | none => simp [found, otherFound, index] at places
        | some other =>
            rcases separates.exists_findIdx?_eq_some
              (consistent.lt_of_target otherFound).2 with
              ⟨otherPlace, otherIndex, otherBound, otherInside⟩
            simp only [found, otherFound, index, otherIndex,
              Option.bind_some, Nat.add_right_cancel_iff] at places
            subst places
            exact .inr ⟨target, other, rfl, rfl, _, List.getElem_mem bound,
              inside, otherInside⟩
  · have missing (source : Nat) : dfa.target? source character = none := by
      rw [Option.eq_none_iff_forall_ne_some]
      intro target found
      exact known (consistent.mem_alphabet found)
    exact .inl ⟨missing first, missing second⟩

/-- States in one group of a stable partition are alike. -/
theorem alike_of_mem (separates : dfa.Separates partition)
    (consistent : dfa.IsConsistent) (stable : dfa.IsStable partition)
    (member : group ∈ partition) {first second : Nat}
    (firstInside : first ∈ group) (secondInside : second ∈ group) :
    dfa.Alike first second := by
  intro word
  induction word generalizing group first second with
  | nil =>
      exact congrArg some
        (separates.final group member first firstInside second secondInside)
  | cons character word same =>
      rw [outcome?_cons, outcome?_cons]
      rcases separates.target?_of_isStable consistent stable member
        firstInside secondInside character with
        ⟨missing, otherMissing⟩ | ⟨target, other, found, otherFound, both⟩
      · rw [missing, otherMissing]
      · rcases both with ⟨reached, reachedMember, inside, otherInside⟩
        rw [found, otherFound]
        exact same reachedMember inside otherInside

end Separates

namespace IsConsistent

/-- Refining the initial partition stops at the stable partition. -/
theorem stopsAt_stablePartition (consistent : dfa.IsConsistent) :
    dfa.StopsAt dfa.initialPartition dfa.stablePartition := by
  have initial := Separates.initial consistent
  rcases Nat.eq_zero_or_pos dfa.size with none | some
  · rw [stablePartition, none, Dfa.refineFrom, initial.eq_nil none]
    exact ⟨.refl, rfl⟩
  · apply initial.stopsAt_refineFrom consistent
    rcases (initial.covers 0).2 some with ⟨group, member, -⟩
    have occupied := List.length_pos_of_mem member
    omega

theorem separates_stablePartition (consistent : dfa.IsConsistent) :
    dfa.Separates dfa.stablePartition ∧
      dfa.IsStable dfa.stablePartition := by
  rcases consistent.stopsAt_stablePartition with ⟨refined, final⟩
  exact ⟨(Separates.initial consistent).of_refined consistent refined,
    isStable_of_refine?_eq_none final⟩

/-- The groups of the stable partition are the classes of states that are
alike. -/
theorem alike_iff (consistent : dfa.IsConsistent) {first second : Nat}
    {group : Group} (member : group ∈ dfa.stablePartition)
    (firstInside : first ∈ group) (secondInside : second < dfa.size) :
    dfa.Alike first second ↔ second ∈ group := by
  rcases consistent.separates_stablePartition with ⟨separates, stable⟩
  constructor
  · intro alike
    exact (separates.mem_iff_of_alike member
      (separates.lt_size member firstInside) secondInside alike).1 firstInside
  · intro inside
    exact separates.alike_of_mem consistent stable member firstInside inside

end IsConsistent

end PatternAutomata.Dfa
