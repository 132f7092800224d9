import PatternAutomata.Proofs.Compile
import PatternAutomata.Proofs.Dfa.Representation
import PatternAutomata.Proofs.Nfa.Parsed

/-!
# The start state of compiled automata

No edge enters the start state of the automaton of a pattern, so only the empty
word leads to it.  Of the sets after words, only the first one therefore has
the flagged state, and of the groups of equivalent sets, only the first one has
that set.  So the compiled automata have one flagged state, which is the start
state and comes first, and in the automaton of subsets every state lies on a
run from there to an accepting state.
-/

namespace PatternAutomata

namespace Nfa

variable {nfa : Nfa}

/-- The designated start state, and no other, is flagged, and no edge enters
it. -/
structure HasEntry (nfa : Nfa) : Prop where
  isStart_iff : ∀ id, nfa.isStart id = true ↔ id = nfa.start
  entry : ∀ source label, nfa.start ∉ nfa.targets source label

/-- Only the path without edges ends at a number that no edge enters. -/
theorem Path.eq_of_no_edge {first last : StateId} {word : List Char}
    (path : nfa.Path first word last)
    (entry : ∀ source label, last ∉ nfa.targets source label) :
    first = last ∧ word = [] := by
  induction path with
  | done => exact ⟨rfl, rfl⟩
  | empty edge _ trivial_rest =>
      rcases trivial_rest entry with ⟨rfl, -⟩
      exact absurd edge (entry _ _)
  | read edge _ trivial_rest =>
      rcases trivial_rest entry with ⟨rfl, -⟩
      exact absurd edge (entry _ _)

/-- Flagging the terminals of the automaton of an expression gives it an
entry. -/
theorem hasEntry_markTerminals {tree : Regex} (hasMembers : tree.HasMembers)
    (supply : IdSupply) : (ofRegex tree supply).1.markTerminals.HasEntry := by
  have shape := hasThompsonShape_ofRegex hasMembers supply
  constructor
  · intro id
    rw [isStart_markTerminals, start_markTerminals]
    apply and_iff_left_of_imp
    rintro rfl
    exact shape.start
  · intro source label
    rw [start_markTerminals, targets_markTerminals]
    exact shape.entry source label

end Nfa

namespace Dfa

variable {nfa : Nfa} {dfa : Dfa}

/-- The first state is the start state, and it alone is flagged as such. -/
structure HasOneStart (dfa : Dfa) : Prop where
  /-- The designated start state is the first one. -/
  start : dfa.start = 0
  /-- The first state has the number zero, and it is flagged. -/
  first : ∃ state, dfa.states[0]? = some state ∧ state.id = 0 ∧
    state.isStart = true
  /-- No other state is flagged. -/
  only : ∀ (id : Nat) (state : State), dfa.states[id]? = some state →
    state.isStart = true → id = 0

theorem IsConsistent.hasOneStart (consistent : dfa.IsConsistent)
    (start : dfa.start = 0)
    (isStart_iff : ∀ id, dfa.isStart id = true ↔ id = 0) :
    dfa.HasOneStart := by
  refine ⟨start, ?_, ?_⟩
  · have flagged := (isStart_iff 0).2 rfl
    rcases lt_size_iff.1 (lt_size_of_any flagged) with ⟨state, found⟩
    rw [isStart, found, Option.any_some] at flagged
    exact ⟨state, found, consistent.id_eq found, flagged⟩
  · intro id state found flagged
    rw [← isStart_iff, isStart, found]
    exact flagged

/-! ## The automaton of subsets -/

/-- Only the empty word leads to a set with the start state. -/
theorem IsSubsetAutomaton.isStart_iff_eq_start
    (subsets : dfa.IsSubsetAutomaton nfa) (only : nfa.ReachesOnlyStates)
    (hasEntry : nfa.HasEntry) (id : Nat) :
    dfa.isStart id = true ↔ id = dfa.start := by
  constructor
  · intro flagged
    have inside : id < dfa.size := lt_size_of_any flagged
    rcases (subsets.isStart_iff inside).1 flagged with
      ⟨state, member, stateFlagged⟩
    rw [hasEntry.isStart_iff] at stateFlagged
    subst stateFlagged
    rcases subsets.exists_run?_start only inside with ⟨word, found⟩
    rw [((subsets.run?_start_eq_some_iff only).1 found).2,
      only.mem_after_iff] at member
    rw [(member.eq_of_no_edge hasEntry.entry).2, run?_nil] at found
    exact (Option.some.inj found).symm
  · rintro rfl
    rw [subsets.isStart_iff subsets.start_lt, subsets.members_start]
    exact ⟨nfa.start, only.mem_after_iff.2 (.done _),
      (hasEntry.isStart_iff _).2 rfl⟩

theorem IsSubsetAutomaton.hasOneStart
    (subsets : (ofNfa nfa).IsSubsetAutomaton nfa) (only : nfa.ReachesOnlyStates)
    (hasEntry : nfa.HasEntry) : (ofNfa nfa).HasOneStart := by
  have start := start_ofNfa nfa
  apply subsets.consistent.hasOneStart start
  intro id
  rw [subsets.isStart_iff_eq_start only hasEntry, start]

/-! ## The minimal automaton -/

namespace IsQuotient

variable {groups : Partition} {id first second : Nat}

/-- The places of two groups with a common state are the same. -/
theorem place_eq_of_mem (quotient : dfa.IsQuotient groups)
    {group other : Group} (entry : groups[first]? = some group)
    (otherEntry : groups[second]? = some other) (inside : id ∈ group)
    (otherInside : id ∈ other) : first = second := by
  have member := List.mem_of_getElem? entry
  have same : group = other :=
    quotient.separates.group_eq_of_alike member
      (List.mem_of_getElem? otherEntry) inside otherInside fun _ => rfl
  subst same
  have known := (quotient.idOf?_mergeGroups member).2 entry
  rw [(quotient.idOf?_mergeGroups member).2 otherEntry] at known
  exact (Option.some.inj known).symm

/-- If one state is flagged, the state of its group is the one flagged after
merging. -/
theorem isStart_mergeGroups_iff (quotient : dfa.IsQuotient groups)
    (isStart_iff : ∀ id, dfa.isStart id = true ↔ id = dfa.start)
    {group : Group} {place : Nat} (entry : groups[place]? = some group)
    (inside : dfa.start ∈ group) (id : Nat) :
    (dfa.mergeGroups groups).isStart id = true ↔ id = place := by
  rw [isStart, quotient.states_mergeGroups]
  constructor
  · intro flagged
    cases found : groups[id]? with
    | none =>
        rw [found] at flagged
        cases flagged
    | some other =>
        rw [found, Option.map_some, Option.any_some, isStart_groupState_iff]
          at flagged
        rcases flagged with ⟨source, sourceInside, sourceFlagged⟩
        rw [isStart_iff] at sourceFlagged
        subst sourceFlagged
        exact quotient.place_eq_of_mem found entry sourceInside inside
  · rintro rfl
    rw [entry, Option.map_some, Option.any_some, isStart_groupState_iff]
    exact ⟨dfa.start, inside, (isStart_iff _).2 rfl⟩

end IsQuotient

/-- Minimization keeps the only flagged state, and puts it first. -/
theorem IsSubsetAutomaton.hasOneStart_minimize
    (subsets : dfa.IsSubsetAutomaton nfa) (only : nfa.ReachesOnlyStates)
    (built : nfa.Built) (hasEntry : nfa.HasEntry) :
    dfa.minimize.HasOneStart := by
  have quotient := subsets.consistent.isQuotient_stablePartition
    (subsets.hasDistinctUnions only)
  have ordered := quotient.perm (dfa.startFirst_perm _).symm
  rcases quotient.separates.exists_head_startFirst subsets.start_lt with
    ⟨group, rest, order, inside⟩
  have entry : (dfa.startFirst dfa.stablePartition)[0]? = some group := by
    rw [order]
    rfl
  apply (isCoherent_minimize dfa).consistent.hasOneStart
  · exact quotient.separates.start_merge (subsets.hasStart only built)
  · intro id
    rw [minimize, merge_eq]
    exact ordered.isStart_mergeGroups_iff
      (subsets.isStart_iff_eq_start only hasEntry) entry inside id

end Dfa

/-! ## Compiled patterns -/

/-- Every state of the automaton of subsets of a pattern lies on a run from the
start state to an accepting one; it and the minimal automaton have one flagged
state, which is the start state and comes first. -/
theorem compiled_isTrim_and_hasOneStart (pattern : String) (dfa : Dfa)
    (compiled : compileDfa pattern = .ok dfa) :
    dfa.IsReached ∧ dfa.IsTrim ∧ dfa.HasOneStart ∧
      ∃ minimal, compile pattern = .ok minimal ∧ minimal.HasOneStart := by
  rcases compileDfa_eq_ok_iff.1 compiled with ⟨nfa, compiledNfa, rfl⟩
  rcases isMarked_of_compileNfa compiledNfa with ⟨tree, derived, marked⟩
  have only := marked.realizes.only
  have subsets := marked.isSubsetAutomaton
  have hasEntry : nfa.HasEntry := by
    rcases compileNfa_eq_ok_iff.1 compiledNfa with ⟨other, derived, rfl⟩
    exact Nfa.hasEntry_markTerminals (Parser.hasMembers_of_derives derived) _
  exact ⟨subsets.isReached only, marked.isTrim,
    subsets.hasOneStart only hasEntry, _,
    compile_eq_ok_iff.2 ⟨nfa, compiledNfa, rfl⟩,
    subsets.hasOneStart_minimize only marked.built hasEntry⟩

/-- The tree of the pattern `(a*b+)*`. -/
def loopsTree : Regex :=
  .repeated .zeroOrMore (.concatenation (.repeated .zeroOrMore (.literal 'a'))
    (.repeated .oneOrMore (.literal 'b')))

/-- Loops lead back to no set with the start state. -/
theorem compiled_isTrim_and_hasOneStart_loops :
    ∃ dfa, compileDfa "(a*b+)*" = .ok dfa ∧ dfa.size = 3 ∧
      dfa.IsReached ∧ dfa.IsTrim ∧ dfa.HasOneStart ∧
      ∃ minimal, compile "(a*b+)*" = .ok minimal ∧ minimal.HasOneStart := by
  have read : Parser.parse "(a*b+)*".toList = .ok loopsTree := by
    decide +kernel
  have compiledNfa : compileNfa "(a*b+)*" =
      .ok (Nfa.ofRegex loopsTree .fresh).1.markTerminals :=
    compileNfa_eq_ok_iff.2 ⟨loopsTree, Parser.parse_eq_ok_iff.1 read, rfl⟩
  have compiled := compileDfa_eq_ok_iff.2 ⟨_, compiledNfa, rfl⟩
  refine ⟨_, compiled, ?_, compiled_isTrim_and_hasOneStart _ _ compiled⟩
  decide +kernel

end PatternAutomata
