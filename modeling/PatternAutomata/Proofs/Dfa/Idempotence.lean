import PatternAutomata.Proofs.Dfa.Isomorphism
import PatternAutomata.Proofs.Dfa.Representation

/-!
# Minimizing again

No two states of a minimal automaton are alike.  When such an automaton is
minimized, every group of the stable partition has one state, so the result has
the same states, known by their members, with the same transitions between
them.  Only their numbers may change, since groups are numbered in the order in
which refinement leaves them.
-/

namespace PatternAutomata.Dfa

variable {dfa other : Dfa} {groups : Partition} {group : Group} {id : Nat}

/-- What is known of a state apart from its number: its members and flags. -/
def State.outline (state : State) : StateSet × Bool × Bool :=
  (state.members, state.isStart, state.isFinal)

/-- The members and flags of the states. -/
def outlines (dfa : Dfa) : List (StateSet × Bool × Bool) :=
  dfa.states.toList.map State.outline

/-- The automaton is another one with other numbers for its states. -/
structure IsRenumbering (dfa other : Dfa) : Prop where
  /-- The states have the same members and flags. -/
  outlines : other.outlines.Perm dfa.outlines
  /-- The transitions by members are the same. -/
  structural : other.structural = dfa.structural
  /-- The start states have the same members. -/
  start : other.members other.start = dfa.members dfa.start
  /-- The characters of the alphabet are the same. -/
  alphabet : other.alphabet.Perm dfa.alphabet
  /-- There are as many states. -/
  size : other.size = dfa.size
  /-- There are as many accepting states. -/
  accepting : other.accepting.length = dfa.accepting.length
  /-- There are as many other states. -/
  nonAccepting : other.nonAccepting.length = dfa.nonAccepting.length

/-! ## States with the same members -/

/-- The states have the same members and flags, and their transitions lead to
the same members. -/
structure Mirrors (dfa other : Dfa) (id place : Nat) : Prop where
  members : other.members place = dfa.members id
  isStart : other.isStart place = dfa.isStart id
  isFinal : other.isFinal place = dfa.isFinal id
  target? : ∀ character,
    (other.target? place character).map other.members =
      (dfa.target? id character).map dfa.members

/-- Every state of either automaton has a counterpart in the other one. -/
structure IsMirrored (dfa other : Dfa) : Prop where
  forth : ∀ id < dfa.size, ∃ place < other.size, dfa.Mirrors other id place
  back : ∀ place < other.size, ∃ id < dfa.size, dfa.Mirrors other id place

/-- The states are listed by their numbers. -/
theorem outlines_eq_map_range (dfa : Dfa) :
    dfa.outlines = (List.range dfa.size).map fun id =>
      (dfa.members id, dfa.isStart id, dfa.isFinal id) := by
  apply List.ext_getElem?
  intro id
  rw [outlines, List.getElem?_map, List.getElem?_map, Array.getElem?_toList]
  by_cases inside : id < dfa.size
  · rcases lt_size_iff.1 inside with ⟨state, found⟩
    rw [found, List.getElem?_range inside, Option.map_some, Option.map_some,
      members_of_states found, isStart, isFinal, found]
    rfl
  · have absent : dfa.states[id]? = none := Array.getElem?_eq_none (by
      rwa [Nat.not_lt] at inside)
    rw [absent, List.getElem?_eq_none (by simpa using inside)]
    rfl

/-- Numbers that are listed once and by the flag of their states are counted by
outlines. -/
theorem length_eq_countP_outlines {ids : List Nat} (nodup : ids.Nodup)
    (condition : Bool → Bool)
    (listed : ∀ id, id ∈ ids ↔ id < dfa.size ∧ condition (dfa.isFinal id)) :
    ids.length = dfa.outlines.countP fun outline => condition outline.2.2 := by
  have filtered : ids.Perm
      ((List.range dfa.size).filter fun id => condition (dfa.isFinal id)) := by
    rw [List.perm_ext_iff_of_nodup nodup (List.nodup_range.filter _)]
    intro id
    rw [listed, List.mem_filter, List.mem_range]
  rw [filtered.length_eq, ← List.countP_eq_length_filter,
    outlines_eq_map_range, List.countP_map]
  rfl

namespace IsCoherent

theorem nodup_outlines (coherent : dfa.IsCoherent) : dfa.outlines.Nodup := by
  rw [outlines_eq_map_range]
  apply List.Nodup.map_on _ List.nodup_range
  intro first firstInside second secondInside same
  rw [List.mem_range] at firstInside secondInside
  exact coherent.consistent.eq_of_members_eq firstInside secondInside
    (Prod.ext_iff.1 same).1

/-- The accepting class has as many states as are flagged. -/
theorem length_accepting (coherent : dfa.IsCoherent) :
    dfa.accepting.length = dfa.outlines.countP fun outline => outline.2.2 :=
  length_eq_countP_outlines coherent.classified.nodup_accepting id
    coherent.classified.mem_accepting_iff

/-- The other class has as many states as are not flagged. -/
theorem length_nonAccepting (coherent : dfa.IsCoherent) :
    dfa.nonAccepting.length =
      dfa.outlines.countP fun outline => !outline.2.2 := by
  apply length_eq_countP_outlines coherent.classified.nodup_nonAccepting not
  intro id
  rw [coherent.classified.mem_nonAccepting_iff, Bool.not_eq_true']

/-- The characters of the alphabet are those in the table by members. -/
theorem mem_alphabet_iff_structuralArrow? (coherent : dfa.IsCoherent)
    {character : Char} :
    character ∈ dfa.alphabet ↔ ∃ members reached,
      dfa.structuralArrow? members character = some reached := by
  rw [coherent.mem_alphabet_iff]
  simp only [coherent.consistent.structural_eq, Option.bind_eq_some_iff,
    Option.map_eq_some_iff]
  constructor
  · rintro ⟨source, target, edge⟩
    have inside := (coherent.consistent.lt_of_target edge).1
    exact ⟨_, _, source, coherent.consistent.idOf?_members inside, target,
      edge, rfl⟩
  · rintro ⟨-, -, source, -, target, edge, -⟩
    exact ⟨source, target, edge⟩

end IsCoherent

namespace IsMirrored

theorem outlines_perm (mirrored : dfa.IsMirrored other)
    (coherent : dfa.IsCoherent) (otherCoherent : other.IsCoherent) :
    other.outlines.Perm dfa.outlines := by
  rw [List.perm_ext_iff_of_nodup otherCoherent.nodup_outlines
    coherent.nodup_outlines, outlines_eq_map_range, outlines_eq_map_range]
  intro outline
  simp only [List.mem_map, List.mem_range]
  constructor
  · rintro ⟨place, inside, rfl⟩
    rcases mirrored.back place inside with ⟨id, small, mirrors⟩
    refine ⟨id, small, ?_⟩
    rw [mirrors.members, mirrors.isStart, mirrors.isFinal]
  · rintro ⟨id, inside, rfl⟩
    rcases mirrored.forth id inside with ⟨place, small, mirrors⟩
    refine ⟨place, small, ?_⟩
    rw [mirrors.members, mirrors.isStart, mirrors.isFinal]

theorem structuralArrow?_eq (mirrored : dfa.IsMirrored other)
    (consistent : dfa.IsConsistent) (otherConsistent : other.IsConsistent)
    (members : StateSet) (character : Char) :
    other.structuralArrow? members character =
      dfa.structuralArrow? members character := by
  rw [consistent.structural_eq, otherConsistent.structural_eq]
  cases known : dfa.idOf? members with
  | some id =>
      rcases consistent.idOf?_iff.1 known with ⟨inside, rfl⟩
      rcases mirrored.forth id inside with ⟨place, small, mirrors⟩
      rw [← mirrors.members, otherConsistent.idOf?_members small]
      exact mirrors.target? character
  | none =>
      cases otherKnown : other.idOf? members with
      | none => rfl
      | some place =>
          rcases otherConsistent.idOf?_iff.1 otherKnown with ⟨inside, rfl⟩
          rcases mirrored.back place inside with ⟨id, small, mirrors⟩
          rw [mirrors.members, consistent.idOf?_members small] at known
          exact nomatch known

/-- Automata whose states correspond by their members differ in numbers
only. -/
theorem isRenumbering (mirrored : dfa.IsMirrored other)
    (coherent : dfa.IsCoherent) (otherCoherent : other.IsCoherent)
    (start : other.members other.start = dfa.members dfa.start) :
    dfa.IsRenumbering other := by
  have outlines := mirrored.outlines_perm coherent otherCoherent
  have arrows := mirrored.structuralArrow?_eq coherent.consistent
    otherCoherent.consistent
  constructor
  case outlines => exact outlines
  case structural =>
    exact otherCoherent.consistent.structural_rows.ext
      coherent.consistent.structural_rows arrows
  case start => exact start
  case alphabet =>
    rw [List.perm_ext_iff_of_nodup otherCoherent.spells.nodup
      coherent.spells.nodup]
    intro character
    rw [coherent.mem_alphabet_iff_structuralArrow?,
      otherCoherent.mem_alphabet_iff_structuralArrow?]
    simp only [arrows]
  case size =>
    have lengths := outlines.length_eq
    rw [outlines_eq_map_range, outlines_eq_map_range, List.length_map,
      List.length_map, List.length_range, List.length_range] at lengths
    exact lengths
  case accepting =>
    rw [coherent.length_accepting, otherCoherent.length_accepting,
      outlines.countP_eq]
  case nonAccepting =>
    rw [coherent.length_nonAccepting, otherCoherent.length_nonAccepting,
      outlines.countP_eq]

end IsMirrored

/-! ## Automata without states that are alike -/

/-- Every state is alike to itself only. -/
def HasNoTwins (dfa : Dfa) : Prop :=
  ∀ first < dfa.size, ∀ second < dfa.size,
    dfa.Alike first second → first = second

namespace HasNoTwins

/-- The union of the members of alike states is the members of one state. -/
theorem mem_unionMembers_iff (single : dfa.HasNoTwins) (inside : id < dfa.size)
    {member : StateId} :
    member ∈ dfa.unionMembers id ↔ member ∈ dfa.members id := by
  constructor
  · rintro ⟨twin, alike, known⟩
    rw [single id inside twin (lt_size_of_mem_members known) alike]
    exact known
  · intro known
    exact ⟨id, fun _ => rfl, known⟩

theorem hasDistinctUnions (single : dfa.HasNoTwins)
    (consistent : dfa.IsConsistent) : dfa.HasDistinctUnions := by
  intro first firstInside second secondInside same
  have members : dfa.members first = dfa.members second := by
    ext member
    rw [← single.mem_unionMembers_iff firstInside, same,
      single.mem_unionMembers_iff secondInside]
  rw [consistent.eq_of_members_eq firstInside secondInside members]
  exact fun _ => rfl

/-- A group has one state. -/
theorem eq_of_mem (single : dfa.HasNoTwins) (quotient : dfa.IsQuotient groups)
    (member : group ∈ groups) (inside : id ∈ group) {twin : Nat}
    (twinInside : twin ∈ group) : twin = id :=
  single twin (quotient.separates.lt_size member twinInside) id
    (quotient.separates.lt_size member inside)
    (quotient.alike group member twin twinInside id inside)

theorem members_mergeGroups (single : dfa.HasNoTwins)
    (quotient : dfa.IsQuotient groups) {place : Nat}
    (entry : groups[place]? = some group) (inside : id ∈ group) :
    (dfa.mergeGroups groups).members place = dfa.members id := by
  have found := quotient.states_mergeGroups place
  rw [entry, Option.map_some] at found
  rw [members_of_states found]
  change dfa.groupMembers group = dfa.members id
  ext member
  rw [mem_groupMembers_iff]
  constructor
  · rintro ⟨twin, twinInside, known⟩
    rw [← single.eq_of_mem quotient (List.mem_of_getElem? entry) inside
      twinInside]
    exact known
  · intro known
    exact ⟨id, inside, known⟩

theorem isStart_mergeGroups (single : dfa.HasNoTwins)
    (quotient : dfa.IsQuotient groups) {place : Nat}
    (entry : groups[place]? = some group) (inside : id ∈ group) :
    (dfa.mergeGroups groups).isStart place = dfa.isStart id := by
  rw [isStart, quotient.states_mergeGroups, entry, Option.map_some,
    Option.any_some, Bool.eq_iff_iff, isStart_groupState_iff]
  constructor
  · rintro ⟨twin, twinInside, flagged⟩
    rw [← single.eq_of_mem quotient (List.mem_of_getElem? entry) inside
      twinInside]
    exact flagged
  · intro flagged
    exact ⟨id, inside, flagged⟩

/-- The state that a group becomes mirrors the state in the group. -/
theorem mirrors_mergeGroups (single : dfa.HasNoTwins)
    (quotient : dfa.IsQuotient groups) (consistent : dfa.IsConsistent)
    {place : Nat} (entry : groups[place]? = some group)
    (inside : id ∈ group) :
    dfa.Mirrors (dfa.mergeGroups groups) id place where
  members := single.members_mergeGroups quotient entry inside
  isStart := single.isStart_mergeGroups quotient entry inside
  isFinal := quotient.isFinal_mergeGroups entry inside
  target? character := by
    rcases quotient.target?_mergeGroups consistent entry inside character with
      ⟨missing, mergedMissing⟩ |
        ⟨target, reached, found, mergedFound, _, reachedEntry, targetInside⟩
    · rw [missing, mergedMissing]
      rfl
    · rw [found, mergedFound, Option.map_some, Option.map_some,
        single.members_mergeGroups quotient reachedEntry targetInside]

theorem isMirrored_mergeGroups (single : dfa.HasNoTwins)
    (quotient : dfa.IsQuotient groups) (consistent : dfa.IsConsistent) :
    dfa.IsMirrored (dfa.mergeGroups groups) where
  forth id inside := by
    rcases (quotient.separates.covers id).2 inside with
      ⟨group, member, known⟩
    rcases List.getElem?_of_mem member with ⟨place, entry⟩
    refine ⟨place, ?_, single.mirrors_mergeGroups quotient consistent entry
      known⟩
    rw [quotient.size_mergeGroups]
    exact (List.getElem?_eq_some_iff.1 entry).1
  back place inside := by
    rw [quotient.size_mergeGroups] at inside
    have entry := List.getElem?_eq_getElem inside
    have member : groups[place] ∈ groups := List.getElem_mem inside
    rcases quotient.separates.nonempty _ member with ⟨id, known⟩
    exact ⟨id, quotient.separates.lt_size member known,
      single.mirrors_mergeGroups quotient consistent entry known⟩

/-- The start state keeps its members. -/
theorem members_start_minimize (single : dfa.HasNoTwins)
    (coherent : dfa.IsCoherent) :
    dfa.minimize.members dfa.minimize.start = dfa.members dfa.start := by
  have quotient := coherent.consistent.isQuotient_stablePartition
    (single.hasDistinctUnions coherent.consistent)
  have start : dfa.minimize.start = 0 :=
    quotient.separates.start_merge coherent.hasStart
  rw [start, minimize, merge_eq]
  rcases Nat.eq_zero_or_pos dfa.size with none_there | occupied
  · have ordered := quotient.perm (dfa.startFirst_perm _).symm
    have nothing : dfa.startFirst dfa.stablePartition = [] :=
      ordered.separates.eq_nil none_there
    rw [nothing, members, members, Array.size_eq_zero_iff.1 none_there]
    rfl
  · rcases quotient.separates.exists_head_startFirst
      (coherent.hasStart.start_lt occupied) with ⟨group, rest, order, inside⟩
    have ordered := quotient.perm (dfa.startFirst_perm _).symm
    apply single.members_mergeGroups ordered _ inside
    rw [order]
    rfl

/-- Minimization gives the states of an automaton without twins other numbers
and changes nothing else. -/
theorem isRenumbering_minimize (single : dfa.HasNoTwins)
    (coherent : dfa.IsCoherent) : dfa.IsRenumbering dfa.minimize := by
  have quotient := coherent.consistent.isQuotient_stablePartition
    (single.hasDistinctUnions coherent.consistent)
  have ordered := quotient.perm (dfa.startFirst_perm _).symm
  have mirrored : dfa.IsMirrored dfa.minimize := by
    rw [minimize, merge_eq]
    exact single.isMirrored_mergeGroups ordered coherent.consistent
  exact mirrored.isRenumbering coherent (isCoherent_minimize dfa)
    (single.members_start_minimize coherent)

end HasNoTwins

/-! ## Minimal automata -/

/-- Minimization leaves no two states that are alike. -/
theorem IsConsistent.hasNoTwins_minimize (consistent : dfa.IsConsistent)
    (distinct : dfa.HasDistinctUnions) : dfa.minimize.HasNoTwins := by
  have ordered := (consistent.isQuotient_stablePartition distinct).perm
    (dfa.startFirst_perm _).symm
  rw [minimize, merge_eq]
  intro first firstInside second secondInside
  exact ordered.eq_of_alike_mergeGroups consistent firstInside secondInside

/-- The minimal automaton of subsets has no two states that are alike. -/
theorem hasNoTwins_minimize_ofNfa {nfa : Nfa}
    (only : nfa.isEmpty = true ∨ nfa.ReachesOnlyStates) :
    (ofNfa nfa).minimize.HasNoTwins := by
  rcases only with stateless | only
  · rw [ofNfa, if_pos stateless, minimize_empty]
    intro first inside
    exact absurd inside (Nat.not_lt_zero first)
  · have subsets := isSubsetAutomaton_ofNfa only
    exact subsets.consistent.hasNoTwins_minimize
      (subsets.hasDistinctUnions only)

/-- Minimizing the minimal automaton of subsets again only gives its states
other numbers. -/
theorem minimize_minimize_isRenumbering (nfa : Nfa)
    (only : nfa.isEmpty = true ∨ nfa.ReachesOnlyStates) :
    Nfa.Checked.determinize nfa = .ok (ofNfa nfa) ∧
      (ofNfa nfa).minimize.IsRenumbering (ofNfa nfa).minimize.minimize := by
  have single := hasNoTwins_minimize_ofNfa only
  exact ⟨Nfa.Checked.determinize_eq_ok only,
    single.isRenumbering_minimize (isCoherent_minimize _)⟩

/-- The automaton of the pattern `abc`, with its terminals flagged. -/
def threeLetters : Nfa :=
  (Nfa.ofRegex (.concatenation (.concatenation (.literal 'a') (.literal 'b'))
    (.literal 'c')) .fresh).1.markTerminals

/-- The numbers of the states change indeed. -/
theorem minimize_minimize_isRenumbering_threeLetters :
    threeLetters.ReachesOnlyStates ∧ (ofNfa threeLetters).minimize.size = 4 ∧
      (ofNfa threeLetters).minimize.minimize.states ≠
        (ofNfa threeLetters).minimize.states ∧
      Nfa.Checked.determinize threeLetters = .ok (ofNfa threeLetters) ∧
      (ofNfa threeLetters).minimize.IsRenumbering
        (ofNfa threeLetters).minimize.minimize := by
  have only : threeLetters.ReachesOnlyStates := by
    rw [Nfa.reachesOnlyStates_iff (by decide +kernel)]
    decide +kernel
  refine ⟨only, ?_, ?_, minimize_minimize_isRenumbering _ (.inr only)⟩
  · decide +kernel
  · decide +kernel

end PatternAutomata.Dfa
