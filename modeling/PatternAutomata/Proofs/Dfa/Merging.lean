import PatternAutomata.Proofs.Dfa.Partition
import PatternAutomata.Proofs.Dfa.Records

/-!
# Merging states that are alike

If the groups of a partition are the classes of states that are alike and no
two groups have the same members, the automaton with one state for each group
does with every word what the original does: the state for a group and the
states in the group have the same outcomes.
-/

namespace PatternAutomata.Dfa

variable {dfa : Dfa} {groups : Partition} {group : Group}

/-- The groups are the classes of states that are alike, with different
members. -/
structure IsQuotient (dfa : Dfa) (groups : Partition) : Prop where
  separates : dfa.Separates groups
  alike : ∀ group ∈ groups, ∀ first ∈ group, ∀ second ∈ group,
    dfa.Alike first second
  distinct : groups.Pairwise fun group other =>
    dfa.groupMembers group ≠ dfa.groupMembers other

/-- The automaton with one state for each group, in the given order. -/
def mergeGroups (dfa : Dfa) (groups : Partition) : Dfa :=
  ofRecords (groups.mapIdx dfa.groupState)
    (groups.flatMap (dfa.groupRecords groups))

theorem mem_groupMembers_iff {state : StateId} :
    state ∈ dfa.groupMembers group ↔
      ∃ id ∈ group, state ∈ dfa.members id := by
  rw [groupMembers, Std.ExtTreeSet.mem_ofList, List.contains_iff_mem,
    List.mem_flatMap]
  simp only [Std.ExtTreeSet.mem_toList]

theorem isStart_groupState_iff {place : Nat} :
    (dfa.groupState place group).isStart = true ↔
      ∃ id ∈ group, dfa.isStart id = true := by
  change group.toList.any dfa.isStart = true ↔ _
  simp only [List.any_eq_true, Std.ExtTreeSet.mem_toList]

theorem mergedMembers?_eq_some {id : Nat} {members : StateSet}
    (merged : dfa.mergedMembers? groups id = some members) :
    ∃ group ∈ groups, id ∈ group ∧ members = dfa.groupMembers group := by
  rcases Option.map_eq_some_iff.1 merged with ⟨group, found, rfl⟩
  exact ⟨group, List.mem_of_find?_eq_some found,
    of_decide_eq_true (List.find?_some found :), rfl⟩

theorem exists_of_mem_groupRecords {record : Record}
    (member : record ∈ dfa.groupRecords groups group) :
    ∃ id ∈ group, ∃ target,
      dfa.target? id record.character = some target ∧
        record.source = dfa.groupMembers group ∧
        ∃ reached ∈ groups, target ∈ reached ∧
          record.target = dfa.groupMembers reached := by
  rw [groupRecords] at member
  split at member
  · exact nomatch member
  · next representative least =>
      have inside : representative ∈ group :=
        Std.ExtTreeSet.mem_toList.1 (List.mem_of_mem_head? least)
      rcases List.mem_filterMap.1 member with ⟨character, -, found⟩
      simp only [bind, pure, Option.bind_eq_some_iff, Option.some.injEq]
        at found
      rcases found with ⟨target, edge, members, merged, rfl⟩
      rcases mergedMembers?_eq_some merged with
        ⟨reached, reachedMember, targetInside, rfl⟩
      exact ⟨representative, inside, target, edge, rfl, reached,
        reachedMember, targetInside, rfl⟩

/-- Where groups have different members, the members tell the group. -/
theorem eq_of_groupMembers_eq {other : Group}
    (distinct : groups.Pairwise fun group other =>
      dfa.groupMembers group ≠ dfa.groupMembers other)
    (member : group ∈ groups) (otherMember : other ∈ groups)
    (same : dfa.groupMembers group = dfa.groupMembers other) :
    group = other := by
  by_contra different
  have symmetric : Std.Symm fun group other : Group =>
      dfa.groupMembers group ≠ dfa.groupMembers other :=
    ⟨fun _ _ => Ne.symm⟩
  exact distinct.forall member otherMember different same

namespace IsQuotient

theorem toList_states_mergeGroups (quotient : dfa.IsQuotient groups) :
    (dfa.mergeGroups groups).states.toList =
      groups.mapIdx dfa.groupState := by
  have distinct : (groups.mapIdx dfa.groupState).Pairwise fun state other =>
      state.members ≠ other.members := by
    rw [List.pairwise_iff_getElem]
    intro first second firstBound secondBound less
    rw [List.getElem_mapIdx, List.getElem_mapIdx]
    exact List.pairwise_iff_getElem.1 quotient.distinct first second _ _ less
  rw [mergeGroups, toList_states_ofRecords _ _ distinct, List.mapIdx_mapIdx]
  rfl

theorem states_mergeGroups (quotient : dfa.IsQuotient groups) (id : Nat) :
    (dfa.mergeGroups groups).states[id]? =
      (groups[id]?).map (dfa.groupState id) := by
  rw [← Array.getElem?_toList, quotient.toList_states_mergeGroups,
    List.getElem?_mapIdx]

theorem size_mergeGroups (quotient : dfa.IsQuotient groups) :
    (dfa.mergeGroups groups).size = groups.length := by
  rw [size, ← Array.length_toList, quotient.toList_states_mergeGroups,
    List.length_mapIdx]

theorem idOf?_mergeGroups (quotient : dfa.IsQuotient groups)
    (member : group ∈ groups) {id : Nat} :
    (dfa.mergeGroups groups).idOf? (dfa.groupMembers group) = some id ↔
      groups[id]? = some group := by
  have consistent : (dfa.mergeGroups groups).IsConsistent :=
    isConsistent_ofRecords _ _
  rw [consistent.idOf?_iff, lt_size_iff, members,
    quotient.states_mergeGroups]
  constructor
  · rintro ⟨⟨state, found⟩, same⟩
    rcases Option.map_eq_some_iff.1 found with ⟨other, entry, rfl⟩
    rw [entry] at same ⊢
    rw [eq_of_groupMembers_eq quotient.distinct
      (List.mem_of_getElem? entry) member same]
  · intro entry
    rw [entry]
    exact ⟨⟨_, rfl⟩, rfl⟩

theorem isFinal_mergeGroups (quotient : dfa.IsQuotient groups) {id place : Nat}
    (entry : groups[place]? = some group) (inside : id ∈ group) :
    (dfa.mergeGroups groups).isFinal place = dfa.isFinal id := by
  have member := List.mem_of_getElem? entry
  rw [isFinal, quotient.states_mergeGroups, entry]
  change group.toList.any dfa.isFinal = _
  rw [Bool.eq_iff_iff, List.any_eq_true]
  constructor
  · rintro ⟨other, otherInside, final⟩
    rw [quotient.separates.final group member id inside other
      (Std.ExtTreeSet.mem_toList.1 otherInside)]
    exact final
  · intro final
    exact ⟨id, Std.ExtTreeSet.mem_toList.2 inside, final⟩

/-- The state of a group has a transition only if a state in the group has
one. -/
theorem exists_of_target?_mergeGroups (quotient : dfa.IsQuotient groups)
    {place reached : Nat} {character : Char}
    (entry : groups[place]? = some group)
    (edge : (dfa.mergeGroups groups).target? place character =
      some reached) :
    ∃ id ∈ group, ∃ target, dfa.target? id character = some target ∧
      ∃ other, groups[reached]? = some other ∧ target ∈ other := by
  rw [mergeGroups, target?_ofRecords] at edge
  rcases List.exists_of_findSome?_eq_some edge with ⟨record, member, found⟩
  rcases List.mem_flatMap.1 (List.mem_reverse.1 member) with
    ⟨source, sourceMember, member⟩
  rcases exists_of_mem_groupRecords member with
    ⟨id, inside, target, step, sourceMembers, other, otherMember,
      targetInside, targetMembers⟩
  rw [recordTarget?_eq_some_iff] at found
  rcases found with ⟨sourceKnown, rfl, targetKnown⟩
  rw [sourceMembers] at sourceKnown
  rw [targetMembers] at targetKnown
  have sourceEntry := (quotient.idOf?_mergeGroups sourceMember).1 sourceKnown
  have otherEntry := (quotient.idOf?_mergeGroups otherMember).1 targetKnown
  rw [entry] at sourceEntry
  cases sourceEntry
  exact ⟨id, inside, target, step, other, otherEntry, targetInside⟩

/-- There is a record for every transition of a group. -/
theorem exists_record (quotient : dfa.IsQuotient groups)
    (consistent : dfa.IsConsistent) {id target : Nat} {character : Char}
    (member : group ∈ groups) (inside : id ∈ group)
    (edge : dfa.target? id character = some target) :
    ∃ other ∈ groups,
      ⟨dfa.groupMembers group, character, dfa.groupMembers other⟩ ∈
        dfa.groupRecords groups group := by
  rw [groupRecords]
  split
  · next none_least =>
      have member := Std.ExtTreeSet.mem_toList.2 inside
      rw [List.head?_eq_none_iff.1 none_least] at member
      exact nomatch member
  · next representative least =>
      have representativeInside : representative ∈ group :=
        Std.ExtTreeSet.mem_toList.1 (List.mem_of_mem_head? least)
      rcases (quotient.alike group member id inside representative
        representativeInside).target? character with
        ⟨missing, -⟩ | ⟨reached, step, found, otherFound, -⟩
      · rw [edge] at missing
        exact nomatch missing
      · rcases (quotient.separates.covers step).2
          (consistent.lt_of_target otherFound).2 with
          ⟨other, otherMember, stepInside⟩
        have merged : (dfa.mergedMembers? groups step).isSome = true := by
          rw [mergedMembers?, Option.isSome_map, List.find?_isSome]
          exact ⟨other, otherMember, decide_eq_true stepInside⟩
        rcases Option.isSome_iff_exists.1 merged with ⟨members, merged⟩
        rcases mergedMembers?_eq_some merged with
          ⟨result, resultMember, -, rfl⟩
        refine ⟨result, resultMember, ?_⟩
        rw [List.mem_filterMap]
        refine ⟨character, consistent.mem_alphabet otherFound, ?_⟩
        simp [otherFound, merged]

/-- The state of a group moves like the states in the group. -/
theorem target?_mergeGroups (quotient : dfa.IsQuotient groups)
    (consistent : dfa.IsConsistent) {id place : Nat}
    (entry : groups[place]? = some group) (inside : id ∈ group)
    (character : Char) :
    dfa.target? id character = none ∧
        (dfa.mergeGroups groups).target? place character = none ∨
      ∃ target reached, dfa.target? id character = some target ∧
        (dfa.mergeGroups groups).target? place character = some reached ∧
        ∃ other, groups[reached]? = some other ∧ target ∈ other := by
  have member := List.mem_of_getElem? entry
  cases edge : (dfa.mergeGroups groups).target? place character with
  | none =>
      refine .inl ⟨?_, rfl⟩
      rw [Option.eq_none_iff_forall_ne_some]
      intro target found
      rcases quotient.exists_record consistent member inside found with
        ⟨other, otherMember, listed⟩
      rcases List.getElem?_of_mem otherMember with ⟨reached, otherEntry⟩
      have fits := (quotient.idOf?_mergeGroups member).2 entry
      have leads := (quotient.idOf?_mergeGroups otherMember).2 otherEntry
      rw [mergeGroups, target?_ofRecords, List.findSome?_eq_none_iff] at edge
      have passed := edge _ (List.mem_reverse.2
        (List.mem_flatMap.2 ⟨group, member, listed⟩))
      have named : (dfa.mergeGroups groups).recordTarget? place character
          ⟨dfa.groupMembers group, character, dfa.groupMembers other⟩ =
            some reached :=
        recordTarget?_eq_some_iff.2 ⟨fits, rfl, leads⟩
      exact nomatch passed.symm.trans named
  | some reached =>
      rcases quotient.exists_of_target?_mergeGroups entry edge with
        ⟨representative, representativeInside, step, found, other,
          otherEntry, stepInside⟩
      rcases (quotient.alike group member id inside representative
        representativeInside).target? character with
        ⟨-, missing⟩ | ⟨target, same, targetFound, otherFound, alike⟩
      · rw [found] at missing
        exact nomatch missing
      · rw [found] at otherFound
        cases otherFound
        refine .inr ⟨target, reached, targetFound, rfl, other, otherEntry, ?_⟩
        exact (quotient.separates.mem_iff_of_alike
          (List.mem_of_getElem? otherEntry)
          (consistent.lt_of_target targetFound).2
          (consistent.lt_of_target found).2 alike).2 stepInside

/-- The state of a group does with every word what the states in the group
do. -/
theorem outcome?_mergeGroups (quotient : dfa.IsQuotient groups)
    (consistent : dfa.IsConsistent) {id place : Nat}
    (entry : groups[place]? = some group) (inside : id ∈ group)
    (word : List Char) :
    (dfa.mergeGroups groups).outcome? place word = dfa.outcome? id word := by
  induction word generalizing id place group with
  | nil => exact congrArg some (quotient.isFinal_mergeGroups entry inside)
  | cons character word same =>
      rw [outcome?_cons, outcome?_cons]
      rcases quotient.target?_mergeGroups consistent entry inside character
        with ⟨missing, otherMissing⟩ | ⟨target, reached, found, edge, other,
          otherEntry, targetInside⟩
      · rw [missing, otherMissing]
        rfl
      · rw [found, edge]
        exact same otherEntry targetInside

end IsQuotient

/-! ## The start state -/

/-- The group of the start state, then the other groups. -/
def startFirst (dfa : Dfa) (partition : Partition) : Partition :=
  (partition.filter fun group => dfa.start ∈ group) ++
    partition.filter fun group => !decide (dfa.start ∈ group)

theorem merge_eq (dfa : Dfa) (partition : Partition) :
    dfa.merge partition = dfa.mergeGroups (dfa.startFirst partition) := by
  rw [merge, List.partition_eq_filter_filter]
  rfl

theorem startFirst_perm (dfa : Dfa) (partition : Partition) :
    (dfa.startFirst partition).Perm partition :=
  List.filter_append_perm _ _

namespace Separates

theorem exists_head_startFirst (separates : dfa.Separates groups)
    (startInside : dfa.start < dfa.size) :
    ∃ group rest, dfa.startFirst groups = group :: rest ∧
      dfa.start ∈ group := by
  rcases (separates.covers dfa.start).2 startInside with
    ⟨group, member, inside⟩
  have kept : group ∈ groups.filter fun group => dfa.start ∈ group :=
    List.mem_filter.2 ⟨member, decide_eq_true inside⟩
  rw [startFirst]
  cases found : groups.filter fun group => dfa.start ∈ group with
  | nil =>
      rw [found] at kept
      exact nomatch kept
  | cons first rest =>
      have firstKept : first ∈ groups.filter fun group => dfa.start ∈ group :=
        found ▸ List.mem_cons_self
      exact ⟨first, _, rfl,
        of_decide_eq_true (List.mem_filter.1 firstKept).2⟩

/-- The first group becomes the start state. -/
theorem start_merge (separates : dfa.Separates groups)
    (hasStart : dfa.HasStart) :
    (dfa.merge groups).start = 0 := by
  rw [merge_eq, mergeGroups]
  by_cases startFlagged : dfa.isStart dfa.start = true
  · rcases separates.exists_head_startFirst
      (lt_size_of_any startFlagged) with ⟨group, rest, order, inside⟩
    rw [order, List.mapIdx_cons]
    apply start_ofRecords_cons
    exact isStart_groupState_iff.2 ⟨dfa.start, inside, startFlagged⟩
  · -- no group has a flagged state, so the first state is taken
    rw [start_ofRecords, firstStart, Array.find?_eq_none.2]
    · rfl
    · intro state member isStart
      rcases Array.getElem?_of_mem member with ⟨place, found⟩
      rw [(flags_ofRecords _ _ found).1, List.any_eq_true] at isStart
      rcases isStart with ⟨listed, member, isStart⟩
      rcases List.mem_mapIdx.1 member with ⟨place, bound, rfl⟩
      rcases isStart_groupState_iff.1 (Bool.and_eq_true_iff.1 isStart).2 with
        ⟨id, -, isStart⟩
      exact startFlagged (hasStart.isStart_start id isStart)

end Separates

namespace IsQuotient

theorem perm {other : Partition} (quotient : dfa.IsQuotient groups)
    (perm : groups.Perm other) : dfa.IsQuotient other where
  separates := quotient.separates.perm perm
  alike group member := quotient.alike group (perm.mem_iff.2 member)
  distinct := (perm.pairwise_iff fun different => Ne.symm different).1
    quotient.distinct

theorem size_merge (quotient : dfa.IsQuotient groups) :
    (dfa.merge groups).size = groups.length := by
  have ordered := quotient.perm (dfa.startFirst_perm groups).symm
  rw [merge_eq, ordered.size_mergeGroups]
  exact (dfa.startFirst_perm groups).length_eq

/-- Merging keeps what the automaton does with every word. -/
theorem outcome?_merge (quotient : dfa.IsQuotient groups)
    (consistent : dfa.IsConsistent) (hasStart : dfa.HasStart)
    (occupied : 0 < dfa.size) (word : List Char) :
    (dfa.merge groups).outcome? (dfa.merge groups).start word =
      dfa.outcome? dfa.start word := by
  have ordered := quotient.perm (dfa.startFirst_perm groups).symm
  rcases quotient.separates.exists_head_startFirst
    (hasStart.start_lt occupied) with ⟨group, rest, order, inside⟩
  rw [quotient.separates.start_merge hasStart, merge_eq]
  apply ordered.outcome?_mergeGroups consistent _ inside
  rw [order]
  rfl

end IsQuotient

end PatternAutomata.Dfa
