import PatternAutomata.Proofs.Dfa.Representation

/-!
# Groups of the stable partition

Refinement stops at a partition whose groups are told apart by what words do:
two states are in one group if and only if every word leads from both to a
state or from neither, and to states of which both are accepting or neither is.

Each group becomes a state with the members of all states in the group.  Where
groups have different unions of members, no two of them become one state.  This
is so for every automaton of subsets, since the union of the members of a group
determines what its states do.
-/

namespace PatternAutomata.Dfa

variable {dfa merged : Dfa} {groups : Partition} {group : Group}
  {first second id : Nat}

/-! ## States in one group -/

/-- The states are alike if and only if the same words lead from them to
states, and to states that agree as to acceptance. -/
theorem alike_iff_run? :
    dfa.Alike first second ↔
      ∀ word,
        ((dfa.run? first word).isSome = true ↔
          (dfa.run? second word).isSome = true) ∧
        ∀ target other, dfa.run? first word = some target →
          dfa.run? second word = some other →
            dfa.isFinal target = dfa.isFinal other := by
  constructor
  · intro alike word
    have same := alike word
    rw [outcome?, outcome?] at same
    constructor
    · have defined := congrArg Option.isSome same
      rw [Option.isSome_map, Option.isSome_map] at defined
      rw [defined]
    · intro target other found otherFound
      rw [found, otherFound] at same
      exact Option.some.inj same
  · intro same word
    rcases same word with ⟨defined, final⟩
    rw [outcome?, outcome?]
    cases found : dfa.run? first word with
    | none =>
        cases otherFound : dfa.run? second word with
        | none => rfl
        | some other => simp [found, otherFound] at defined
    | some target =>
        cases otherFound : dfa.run? second word with
        | none => simp [found, otherFound] at defined
        | some other =>
            exact congrArg some (final target other found otherFound)

theorem IsConsistent.exists_group_iff_alike (consistent : dfa.IsConsistent)
    (firstInside : first < dfa.size) (secondInside : second < dfa.size) :
    (∃ group ∈ dfa.stablePartition, first ∈ group ∧ second ∈ group) ↔
      dfa.Alike first second := by
  constructor
  · rintro ⟨group, member, inGroup, otherInGroup⟩
    exact (consistent.alike_iff member inGroup secondInside).2 otherInGroup
  · intro alike
    have separates := consistent.separates_stablePartition.1
    rcases (separates.covers first).2 firstInside with
      ⟨group, member, inGroup⟩
    exact ⟨group, member, inGroup,
      (consistent.alike_iff member inGroup secondInside).1 alike⟩

/-- Refinement stops, and then two states are in one group if and only if the
same words lead from them to states, and to states that agree as to
acceptance. -/
theorem same_group_iff_same_runs (dfa : Dfa) (constructed : dfa.Constructed) :
    dfa.StopsAt dfa.initialPartition dfa.stablePartition ∧
      ∀ first < dfa.size, ∀ second < dfa.size,
        ((∃ group ∈ dfa.stablePartition, first ∈ group ∧ second ∈ group) ↔
          ∀ word,
            ((dfa.run? first word).isSome = true ↔
              (dfa.run? second word).isSome = true) ∧
            ∀ target other, dfa.run? first word = some target →
              dfa.run? second word = some other →
                dfa.isFinal target = dfa.isFinal other) := by
  have consistent := constructed.isCoherent.consistent
  refine ⟨consistent.stopsAt_stablePartition, ?_⟩
  intro first firstInside second secondInside
  rw [consistent.exists_group_iff_alike firstInside secondInside,
    alike_iff_run?]

/-- States that no word leads to: two of them read `a` and accept, a third one
reads `a` and comes to a dead end. -/
def unreached : Dfa :=
  ofRecords
    [.new 0 {0} true true, .new 1 {1} false false, .new 2 {2} false false,
      .new 3 {3} false false, .new 4 {4} false false]
    [⟨{1}, 'a', {0}⟩, ⟨{2}, 'a', {0}⟩, ⟨{3}, 'a', {4}⟩]

theorem same_group_iff_same_runs_unreached :
    unreached.Constructed ∧ unreached.size = 5 ∧
      unreached.StopsAt unreached.initialPartition
        unreached.stablePartition ∧
      unreached.stablePartition.length = 4 ∧
      (∀ word,
        ((unreached.run? 1 word).isSome = true ↔
          (unreached.run? 2 word).isSome = true) ∧
        ∀ target other, unreached.run? 1 word = some target →
          unreached.run? 2 word = some other →
            unreached.isFinal target = unreached.isFinal other) ∧
      ¬∃ group ∈ unreached.stablePartition, 1 ∈ group ∧ 3 ∈ group := by
  have constructed : unreached.Constructed := .ofRecords _ _
  have size : unreached.size = 5 := by decide +kernel
  rcases same_group_iff_same_runs unreached constructed with ⟨stops, same⟩
  refine ⟨constructed, size, stops, by decide +kernel, ?_, ?_⟩
  · apply (same 1 (by omega) 2 (by omega)).1
    decide +kernel
  · rw [same 1 (by omega) 3 (by omega)]
    intro alike
    have final := (alike ['a']).2 0 4 (by decide +kernel) (by decide +kernel)
    exact absurd final (by decide +kernel)

/-! ## What groups become -/

/-- The members of all states in a group. -/
def unionOf (dfa : Dfa) (group : Group) : Set StateId :=
  {member | ∃ id ∈ group, member ∈ dfa.members id}

/-- A state of another automaton has the members of all states in a group, and
it is accepting if and only if they are. -/
structure Unites (dfa : Dfa) (group : Group) (merged : Dfa) (id : Nat) :
    Prop where
  lt_size : id < merged.size
  members : {member | member ∈ merged.members id} = dfa.unionOf group
  isFinal : ∀ source ∈ group, merged.isFinal id = dfa.isFinal source

theorem mem_unionOf_iff {member : StateId} :
    member ∈ dfa.unionOf group ↔ member ∈ dfa.groupMembers group :=
  mem_groupMembers_iff.symm

theorem unionOf_eq_iff {other : Group} :
    dfa.unionOf group = dfa.unionOf other ↔
      dfa.groupMembers group = dfa.groupMembers other := by
  rw [Set.ext_iff, Std.ExtTreeSet.ext_mem_iff]
  simp only [mem_unionOf_iff]

namespace IsQuotient

/-- The state at the place of a group, and no other, unites the group. -/
theorem unites_mergeGroups_iff (quotient : dfa.IsQuotient groups)
    (member : group ∈ groups) :
    dfa.Unites group (dfa.mergeGroups groups) id ↔
      groups[id]? = some group := by
  constructor
  · intro unites
    rw [← quotient.idOf?_mergeGroups member]
    have consistent : (dfa.mergeGroups groups).IsConsistent :=
      isConsistent_ofRecords _ _
    refine consistent.idOf?_iff.2 ⟨unites.lt_size, ?_⟩
    ext state
    rw [← mem_unionOf_iff, ← unites.members]
    rfl
  · intro entry
    have found := quotient.states_mergeGroups id
    rw [entry, Option.map_some] at found
    refine ⟨lt_size_iff.2 ⟨_, found⟩, ?_, ?_⟩
    · ext state
      rw [members_of_states found]
      exact mem_unionOf_iff.symm
    · intro source inside
      exact quotient.isFinal_mergeGroups entry inside

theorem existsUnique_unites (quotient : dfa.IsQuotient groups)
    (member : group ∈ groups) :
    ∃! id, dfa.Unites group (dfa.mergeGroups groups) id := by
  simp only [quotient.unites_mergeGroups_iff member]
  rcases List.getElem?_of_mem member with ⟨place, entry⟩
  refine ⟨place, entry, ?_⟩
  intro other otherEntry
  have known := (quotient.idOf?_mergeGroups member).2 entry
  rw [(quotient.idOf?_mergeGroups member).2 otherEntry] at known
  exact Option.some.inj known

theorem existsUnique_group (quotient : dfa.IsQuotient groups)
    (inside : id < (dfa.mergeGroups groups).size) :
    ∃! group, group ∈ groups ∧
      dfa.Unites group (dfa.mergeGroups groups) id := by
  rw [quotient.size_mergeGroups] at inside
  have entry := List.getElem?_eq_getElem inside
  have member := List.getElem_mem inside
  refine ⟨groups[id],
    ⟨member, (quotient.unites_mergeGroups_iff member).2 entry⟩, ?_⟩
  rintro other ⟨otherMember, unites⟩
  have otherEntry := (quotient.unites_mergeGroups_iff otherMember).1 unites
  rw [entry] at otherEntry
  exact (Option.some.inj otherEntry).symm

end IsQuotient

/-- The states of another automaton and the groups are matched one to one, so
that each state unites its group. -/
structure HasOneStatePerGroup (dfa : Dfa) (groups : Partition)
    (merged : Dfa) : Prop where
  /-- Different groups have different unions of members. -/
  distinct : groups.Pairwise fun group other =>
    dfa.unionOf group ≠ dfa.unionOf other
  /-- There are as many states as groups. -/
  size_eq : merged.size = groups.length
  /-- Every group is united by one state. -/
  state_of_group : ∀ group ∈ groups, ∃! id, dfa.Unites group merged id
  /-- Every state unites one group. -/
  group_of_state : ∀ id < merged.size,
    ∃! group, group ∈ groups ∧ dfa.Unites group merged id

theorem IsQuotient.hasOneStatePerGroup (quotient : dfa.IsQuotient groups) :
    dfa.HasOneStatePerGroup groups (dfa.merge groups) := by
  have perm := dfa.startFirst_perm groups
  have ordered := quotient.perm perm.symm
  constructor
  case distinct =>
    simpa only [ne_eq, unionOf_eq_iff] using quotient.distinct
  case size_eq => exact quotient.size_merge
  case state_of_group =>
    intro group member
    rw [merge_eq]
    exact ordered.existsUnique_unites (perm.mem_iff.2 member)
  case group_of_state =>
    intro id inside
    rw [merge_eq] at inside ⊢
    simpa only [perm.mem_iff] using ordered.existsUnique_group inside

/-! ## Automata of subsets -/

theorem hasDistinctUnions_empty (alphabet : List Char) :
    (empty alphabet).HasDistinctUnions := by
  intro first inside
  exact nomatch inside

/-- Refinement of an automaton of subsets stops, and every group becomes one
state of the minimal automaton. -/
theorem minimize_ofNfa_has_one_state_per_group (nfa : Nfa)
    (only : nfa.isEmpty = true ∨ nfa.ReachesOnlyStates) :
    Nfa.Checked.determinize nfa = .ok (ofNfa nfa) ∧
      (ofNfa nfa).StopsAt (ofNfa nfa).initialPartition
        (ofNfa nfa).stablePartition ∧
      (ofNfa nfa).HasOneStatePerGroup (ofNfa nfa).stablePartition
        (ofNfa nfa).minimize := by
  have separated :
      (ofNfa nfa).IsConsistent ∧ (ofNfa nfa).HasDistinctUnions := by
    rcases only with stateless | only
    · rw [ofNfa, if_pos stateless]
      exact ⟨isConsistent_empty _, hasDistinctUnions_empty _⟩
    · have subsets := isSubsetAutomaton_ofNfa only
      exact ⟨subsets.consistent, subsets.hasDistinctUnions only⟩
  rcases separated with ⟨consistent, distinct⟩
  exact ⟨Nfa.Checked.determinize_eq_ok only,
    consistent.stopsAt_stablePartition,
    (consistent.isQuotient_stablePartition distinct).hasOneStatePerGroup⟩

/-- Two groups have the start state of the automaton in common, and still each
group becomes a state of its own. -/
theorem minimize_ofNfa_has_one_state_per_group_loopWithDeadEnd :
    loopWithDeadEnd.ReachesOnlyStates ∧
      (ofNfa loopWithDeadEnd).stablePartition.length = 3 ∧
      (∃ group ∈ (ofNfa loopWithDeadEnd).stablePartition,
        ∃ other ∈ (ofNfa loopWithDeadEnd).stablePartition, group ≠ other ∧
          loopWithDeadEnd.start ∈
            (ofNfa loopWithDeadEnd).groupMembers group ∧
          loopWithDeadEnd.start ∈
            (ofNfa loopWithDeadEnd).groupMembers other) ∧
      Nfa.Checked.determinize loopWithDeadEnd =
        .ok (ofNfa loopWithDeadEnd) ∧
      (ofNfa loopWithDeadEnd).StopsAt
        (ofNfa loopWithDeadEnd).initialPartition
        (ofNfa loopWithDeadEnd).stablePartition ∧
      (ofNfa loopWithDeadEnd).HasOneStatePerGroup
        (ofNfa loopWithDeadEnd).stablePartition
        (ofNfa loopWithDeadEnd).minimize := by
  refine ⟨loopWithDeadEnd_reachesOnlyStates, ?_, ?_, ?_⟩
  · decide +kernel
  · decide +kernel
  · exact minimize_ofNfa_has_one_state_per_group loopWithDeadEnd
      (.inr loopWithDeadEnd_reachesOnlyStates)

end PatternAutomata.Dfa
