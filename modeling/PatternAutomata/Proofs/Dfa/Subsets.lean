import PatternAutomata.Proofs.Dfa.Exploration
import PatternAutomata.Proofs.Nfa.Checked

/-!
# The automaton of subsets runs like a simulation

After a word the automaton of subsets is in the state for the set that a
simulation holds, and its run breaks off when this set is empty.  So every
state can be reached, and what a state does with a word is determined by the
paths that start at its members.  The main statement puts this in terms of
paths: the run on a word ends in the state for the ends of the paths that spell
the word.
-/

namespace PatternAutomata

namespace Nfa

variable {nfa : Nfa}

/-- Where the automaton can be after a word: the ends of the paths from its
start state that spell the word. -/
def ends (nfa : Nfa) (word : List Char) : Set StateId :=
  {id | nfa.Path nfa.start word id}

/-- A path that spells the word starts in the set. -/
def PassesFrom (nfa : Nfa) (current : StateSet) (word : List Char) : Prop :=
  ∃ source ∈ current, ∃ target, nfa.Path source word target

/-- A path that spells the word leads from the set to an accepting state. -/
def AcceptsFrom (nfa : Nfa) (current : StateSet) (word : List Char) : Prop :=
  ∃ source ∈ current, ∃ target, nfa.Path source word target ∧
    nfa.isFinal target = true

theorem ReachesOnlyStates.mem_after_append_iff (only : nfa.ReachesOnlyStates)
    {front word : List Char} {target : StateId} :
    target ∈ nfa.after (front ++ word) ↔
      ∃ source ∈ nfa.after front, nfa.Path source word target := by
  simp only [only.mem_after_iff]
  constructor
  · intro path
    exact path.divide
  · rintro ⟨source, before, path⟩
    exact before.trans path

end Nfa

namespace Dfa

variable {nfa : Nfa} {dfa : Dfa}

/-- The automaton is the one of the subsets that a simulation can hold. -/
structure IsSubsetAutomaton (dfa : Dfa) (nfa : Nfa) : Prop where
  consistent : dfa.IsConsistent
  alphabet : dfa.alphabet = nfa.alphabet
  subsets : ∀ {id : Nat} {state : State},
    dfa.states[id]? = some state → state.IsSubset nfa
  start_lt : dfa.start < dfa.size
  members_start : dfa.members dfa.start = nfa.after []
  transitions : ∀ id < dfa.size, ∀ character,
    (dfa.target? id character).map dfa.members =
      nfa.next? (dfa.members id) character
  classified : dfa.Classifies (· < dfa.size)

/-- The exploration ends with the automaton of subsets. -/
theorem isSubsetAutomaton_ofNfa (only : nfa.ReachesOnlyStates) :
    (ofNfa nfa).IsSubsetAutomaton nfa := by
  rcases Exploring.run_start only with ⟨explored, none_waits⟩
  rw [ofNfa, only.isEmpty_eq_false]
  constructor
  case consistent =>
    exact explored.consistent
  case alphabet =>
    exact explored.alphabet
  case subsets =>
    exact explored.subsets
  case start_lt =>
    exact explored.start_lt
  case members_start =>
    exact explored.members_start
  case transitions =>
    intro id inside character
    rcases explored.transitions id inside character with
      right | ⟨-, unmarked | pending⟩
    · exact right
    · rw [(explored.isMarked_iff none_waits).2 inside] at unmarked
      cases unmarked
    · cases pending
  case classified =>
    refine explored.classified.transfer rfl rfl (fun id => ?_) fun _ _ => rfl
    exact (explored.isMarked_iff none_waits).symm

/-- The start state is the first one. -/
theorem start_ofNfa (nfa : Nfa) : (ofNfa nfa).start = 0 := by
  rw [ofNfa]
  split
  · rfl
  · rw [Exploration.start_run]
    have unknown : (empty nfa.alphabet).idOf? (nfa.closure [nfa.start]) =
        none := by
      simp [empty, idOf?]
    rw [Exploration.start, addSubset, addState_of_unknown unknown]
    rfl

namespace IsSubsetAutomaton

variable {word : List Char} {id : Nat}

theorem members_ne_empty (subsets : dfa.IsSubsetAutomaton nfa)
    (inside : id < dfa.size) : dfa.members id ≠ ∅ := by
  rcases lt_size_iff.1 inside with ⟨state, found⟩
  rw [members_of_states found]
  exact (subsets.subsets found).nonempty

/-- A run holds the set of a simulation, unless this set is empty. -/
theorem map_members_run? (subsets : dfa.IsSubsetAutomaton nfa)
    (only : nfa.ReachesOnlyStates) (word : List Char) :
    (dfa.run? dfa.start word).map dfa.members =
      if (nfa.after word).isEmpty then none else some (nfa.after word) := by
  induction word using List.reverseRecOn with
  | nil =>
      have nonempty := subsets.members_ne_empty subsets.start_lt
      rw [subsets.members_start, ne_eq,
        ← Std.ExtTreeSet.isEmpty_eq_false_iff] at nonempty
      rw [run?_nil, Option.map_some, subsets.members_start, nonempty]
      rfl
  | append_singleton front character holds =>
      rw [run?_append_singleton]
      cases found : dfa.run? dfa.start front with
      | none =>
          rw [found] at holds
          have empty : nfa.after front = ∅ := by
            split at holds
            · next isEmpty => exact Std.ExtTreeSet.isEmpty_iff.1 isEmpty
            · exact nomatch holds
          have still : nfa.after (front ++ [character]) = ∅ := by
            by_contra nonempty
            exact only.after_ne_empty_of_append nonempty empty
          rw [still]
          rfl
      | some middle =>
          rw [found] at holds
          have inside :=
            subsets.consistent.lt_size_of_run? subsets.start_lt found
          have members : dfa.members middle = nfa.after front := by
            split at holds
            · exact nomatch holds
            · exact Option.some.inj holds
          rw [Option.bind_some, subsets.transitions middle inside, members,
            Nfa.next?, Nfa.after_append_singleton]

theorem exists_run?_start_eq_some (subsets : dfa.IsSubsetAutomaton nfa)
    (only : nfa.ReachesOnlyStates) {state : StateId}
    (member : state ∈ nfa.after word) :
    ∃ target, dfa.run? dfa.start word = some target := by
  have holds := subsets.map_members_run? only word
  have nonempty := Std.ExtTreeSet.ne_empty_of_mem member
  rw [ne_eq, ← Std.ExtTreeSet.isEmpty_eq_false_iff] at nonempty
  rw [nonempty] at holds
  rcases Option.map_eq_some_iff.1 holds with ⟨target, found, -⟩
  exact ⟨target, found⟩

theorem run?_start_eq_some_iff (subsets : dfa.IsSubsetAutomaton nfa)
    (only : nfa.ReachesOnlyStates) :
    dfa.run? dfa.start word = some id ↔
      id < dfa.size ∧ dfa.members id = nfa.after word := by
  have holds := subsets.map_members_run? only word
  constructor
  · intro found
    refine ⟨subsets.consistent.lt_size_of_run? subsets.start_lt found, ?_⟩
    rw [found] at holds
    split at holds
    · exact nomatch holds
    · exact Option.some.inj holds
  · rintro ⟨inside, members⟩
    have nonempty := subsets.members_ne_empty inside
    rw [members, ne_eq, ← Std.ExtTreeSet.isEmpty_eq_false_iff] at nonempty
    rw [nonempty] at holds
    rcases Option.map_eq_some_iff.1 holds with ⟨reached, found, same⟩
    have reachedInside :=
      subsets.consistent.lt_size_of_run? subsets.start_lt found
    rw [found, subsets.consistent.eq_of_members_eq inside reachedInside
      (members.trans same.symm)]

/-- Every state is reached by some word. -/
theorem exists_run?_start (subsets : dfa.IsSubsetAutomaton nfa)
    (only : nfa.ReachesOnlyStates) (inside : id < dfa.size) :
    ∃ word, dfa.run? dfa.start word = some id := by
  rcases lt_size_iff.1 inside with ⟨state, found⟩
  rcases (subsets.subsets found).after with ⟨word, after⟩
  refine ⟨word, (subsets.run?_start_eq_some_iff only).2 ⟨inside, ?_⟩⟩
  rw [members_of_states found, after]

theorem mem_members_of_run? (subsets : dfa.IsSubsetAutomaton nfa)
    (only : nfa.ReachesOnlyStates) {target : Nat} (inside : id < dfa.size)
    (found : dfa.run? id word = some target) {state : StateId} :
    state ∈ dfa.members target ↔
      ∃ source ∈ dfa.members id, nfa.Path source word state := by
  rcases subsets.exists_run?_start only inside with ⟨front, reached⟩
  have whole : dfa.run? dfa.start (front ++ word) = some target := by
    rw [run?_append, reached]
    exact found
  rw [((subsets.run?_start_eq_some_iff only).1 reached).2,
    ((subsets.run?_start_eq_some_iff only).1 whole).2]
  exact only.mem_after_append_iff

theorem isFinal_iff (subsets : dfa.IsSubsetAutomaton nfa)
    (inside : id < dfa.size) :
    dfa.isFinal id = true ↔
      ∃ state ∈ dfa.members id, nfa.isFinal state = true := by
  rcases lt_size_iff.1 inside with ⟨state, found⟩
  rw [Dfa.isFinal, members_of_states found, found, Option.any_some,
    (subsets.subsets found).isFinal, List.any_eq_true]
  simp only [Std.ExtTreeSet.mem_toList]

theorem isStart_iff (subsets : dfa.IsSubsetAutomaton nfa)
    (inside : id < dfa.size) :
    dfa.isStart id = true ↔
      ∃ state ∈ dfa.members id, nfa.isStart state = true := by
  rcases lt_size_iff.1 inside with ⟨state, found⟩
  rw [Dfa.isStart, members_of_states found, found, Option.any_some,
    (subsets.subsets found).isStart, List.any_eq_true]
  simp only [Std.ExtTreeSet.mem_toList]

/-- A run from a state goes through as long as paths from its members do. -/
theorem isSome_outcome?_iff (subsets : dfa.IsSubsetAutomaton nfa)
    (only : nfa.ReachesOnlyStates) (inside : id < dfa.size) :
    (dfa.outcome? id word).isSome = true ↔
      nfa.PassesFrom (dfa.members id) word := by
  rw [outcome?, Option.isSome_map, Option.isSome_iff_exists]
  constructor
  · rintro ⟨target, found⟩
    have targetInside := subsets.consistent.lt_size_of_run? inside found
    rcases StateSet.exists_mem (subsets.members_ne_empty targetInside) with
      ⟨state, member⟩
    rcases (subsets.mem_members_of_run? only inside found).1 member with
      ⟨source, sourceMember, path⟩
    exact ⟨source, sourceMember, state, path⟩
  · rintro ⟨source, sourceMember, state, path⟩
    rcases subsets.exists_run?_start only inside with ⟨front, reached⟩
    rw [((subsets.run?_start_eq_some_iff only).1 reached).2] at sourceMember
    have member : state ∈ nfa.after (front ++ word) :=
      only.mem_after_append_iff.2 ⟨source, sourceMember, path⟩
    rcases subsets.exists_run?_start_eq_some only member with
      ⟨target, found⟩
    rw [run?_append, reached] at found
    exact ⟨target, found⟩

theorem outcome?_eq_some_true_iff (subsets : dfa.IsSubsetAutomaton nfa)
    (only : nfa.ReachesOnlyStates) (inside : id < dfa.size) :
    dfa.outcome? id word = some true ↔
      nfa.AcceptsFrom (dfa.members id) word := by
  constructor
  · intro accepted
    rcases Option.map_eq_some_iff.1 accepted with ⟨target, found, final⟩
    have targetInside := subsets.consistent.lt_size_of_run? inside found
    rcases (subsets.isFinal_iff targetInside).1 final with
      ⟨state, member, accepting⟩
    rcases (subsets.mem_members_of_run? only inside found).1 member with
      ⟨source, sourceMember, path⟩
    exact ⟨source, sourceMember, state, path, accepting⟩
  · rintro ⟨source, sourceMember, state, path, accepting⟩
    have passes : nfa.PassesFrom (dfa.members id) word :=
      ⟨source, sourceMember, state, path⟩
    rw [← subsets.isSome_outcome?_iff only inside, outcome?,
      Option.isSome_map, Option.isSome_iff_exists] at passes
    rcases passes with ⟨target, found⟩
    have member := (subsets.mem_members_of_run? only inside found).2
      ⟨source, sourceMember, path⟩
    have final := (subsets.isFinal_iff
      (subsets.consistent.lt_size_of_run? inside found)).2
      ⟨state, member, accepting⟩
    rw [outcome?, found, Option.map_some, final]

/-- The automaton of subsets accepts the same words. -/
theorem accepts_iff (subsets : dfa.IsSubsetAutomaton nfa)
    (only : nfa.ReachesOnlyStates) :
    dfa.accepts word = true ↔
      ∃ id, nfa.Path nfa.start word id ∧ nfa.isFinal id = true := by
  rw [accepts_eq_true_iff,
    subsets.outcome?_eq_some_true_iff only subsets.start_lt,
    subsets.members_start]
  constructor
  · rintro ⟨source, member, target, path, final⟩
    exact ⟨target, (only.mem_after_iff.1 member).trans path, final⟩
  · rintro ⟨target, path, final⟩
    exact ⟨nfa.start, only.mem_after_iff.2 (.done _), target, path, final⟩

/-- Simulation refuses nothing and agrees with the automaton of subsets. -/
theorem checked_accepts_eq_ok (subsets : dfa.IsSubsetAutomaton nfa)
    (only : nfa.ReachesOnlyStates) (word : List Char) :
    Nfa.Checked.accepts nfa word = .ok (dfa.accepts word) := by
  have agree := Nfa.Checked.accepts_eq_ok_true_iff only word
  rw [← subsets.accepts_iff only, Nfa.Checked.accepts_eq_ok only,
    Except.ok.injEq] at agree
  rw [Nfa.Checked.accepts_eq_ok only, Bool.eq_iff_iff.2 agree]

end IsSubsetAutomaton

/-! ## Simulation along paths -/

/-- The state stands for a set of states, and it has the flags that any of them
has. -/
structure State.StandsFor (nfa : Nfa) (state : State)
    (current : Set StateId) : Prop where
  mem_members_iff : ∀ id, id ∈ state.members ↔ id ∈ current
  isStart_iff : state.isStart = true ↔
    ∃ id ∈ current, nfa.isStart id = true
  isFinal_iff : state.isFinal = true ↔
    ∃ id ∈ current, nfa.isFinal id = true

namespace IsSubsetAutomaton

variable {word : List Char} {id : Nat}

theorem isSome_run?_iff (subsets : dfa.IsSubsetAutomaton nfa)
    (only : nfa.ReachesOnlyStates) :
    (dfa.run? dfa.start word).isSome = true ↔ (nfa.ends word).Nonempty := by
  rw [Option.isSome_iff_exists]
  constructor
  · rintro ⟨id, found⟩
    rcases (subsets.run?_start_eq_some_iff only).1 found with
      ⟨inside, members⟩
    rcases StateSet.exists_mem (subsets.members_ne_empty inside) with
      ⟨state, member⟩
    rw [members] at member
    exact ⟨state, only.mem_after_iff.1 member⟩
  · rintro ⟨state, path⟩
    exact subsets.exists_run?_start_eq_some only (only.mem_after_iff.2 path)

theorem exists_standsFor (subsets : dfa.IsSubsetAutomaton nfa)
    (only : nfa.ReachesOnlyStates)
    (found : dfa.run? dfa.start word = some id) :
    ∃ state, dfa.states[id]? = some state ∧
      state.StandsFor nfa (nfa.ends word) := by
  rcases (subsets.run?_start_eq_some_iff only).1 found with
    ⟨inside, members⟩
  rcases lt_size_iff.1 inside with ⟨state, lookup⟩
  have mem_iff (member : StateId) :
      member ∈ state.members ↔ member ∈ nfa.ends word := by
    rw [← members_of_states lookup, members]
    exact only.mem_after_iff
  have flags := subsets.subsets lookup
  refine ⟨state, lookup, mem_iff, ?_, ?_⟩
  · simp only [flags.isStart, List.any_eq_true, Std.ExtTreeSet.mem_toList,
      mem_iff]
  · simp only [flags.isFinal, List.any_eq_true, Std.ExtTreeSet.mem_toList,
      mem_iff]

end IsSubsetAutomaton

/-- The automaton of subsets simulates the other one.  Its run on a word goes
through as long as a path spells the word, it ends in the state for the ends of
these paths, and the same words are accepted.  Without states nothing is
accepted. -/
theorem ofNfa_simulates (nfa : Nfa)
    (only : nfa.isEmpty = true ∨ nfa.ReachesOnlyStates) (word : List Char) :
    Nfa.Checked.determinize nfa = .ok (ofNfa nfa) ∧
      (nfa.isEmpty = false →
        (((ofNfa nfa).run? (ofNfa nfa).start word).isSome = true ↔
          (nfa.ends word).Nonempty) ∧
        ∀ id, (ofNfa nfa).run? (ofNfa nfa).start word = some id →
          ∃ state, (ofNfa nfa).states[id]? = some state ∧
            state.StandsFor nfa (nfa.ends word)) ∧
      Nfa.Checked.accepts nfa word = .ok ((ofNfa nfa).accepts word) ∧
      (nfa.isEmpty = true → (ofNfa nfa).accepts word = false) := by
  refine ⟨Nfa.Checked.determinize_eq_ok only, ?_⟩
  rcases only with stateless | only
  · have nothing : ofNfa nfa = empty nfa.alphabet := if_pos stateless
    have rejected : (ofNfa nfa).accepts word = false := by
      rw [nothing]
      rfl
    refine ⟨fun occupied => ?_, ?_, fun _ => rejected⟩
    · rw [stateless] at occupied
      cases occupied
    · rw [Nfa.Checked.accepts, stateless, rejected]
      rfl
  · have subsets := isSubsetAutomaton_ofNfa only
    refine ⟨fun _ => ⟨subsets.isSome_run?_iff only, ?_⟩,
      subsets.checked_accepts_eq_ok only word, fun stateless => ?_⟩
    · intro id found
      exact subsets.exists_standsFor only found
    · rw [only.isEmpty_eq_false] at stateless
      cases stateless

/-- Two ways to read `a` from a start state that accepts: one comes back when
it reads `b`, the other by an empty edge. -/
def twoWays : Nfa :=
  ((((Nfa.empty.addState 0).addState 0).addState 0).addEdges
    [⟨0, .char 'a', 1⟩, ⟨0, .char 'a', 2⟩, ⟨1, .char 'b', 0⟩,
      ⟨2, .epsilon, 0⟩]).markTerminals

theorem ofNfa_simulates_twoWays :
    twoWays.ReachesOnlyStates ∧ twoWays.isEmpty = false ∧
      (ofNfa twoWays).run? (ofNfa twoWays).start ['a', 'b', 'a'] = some 1 ∧
      Nfa.Checked.determinize twoWays = .ok (ofNfa twoWays) ∧
      (((ofNfa twoWays).run? (ofNfa twoWays).start
          ['a', 'b', 'a']).isSome = true ↔
        (twoWays.ends ['a', 'b', 'a']).Nonempty) ∧
      (∃ state, (ofNfa twoWays).states[1]? = some state ∧
        state.StandsFor twoWays (twoWays.ends ['a', 'b', 'a'])) ∧
      Nfa.Checked.accepts twoWays ['a', 'b', 'a'] =
        .ok ((ofNfa twoWays).accepts ['a', 'b', 'a']) := by
  have only : twoWays.ReachesOnlyStates := by
    rw [Nfa.reachesOnlyStates_iff (by decide +kernel)]
    decide +kernel
  have occupied : twoWays.isEmpty = false := by decide +kernel
  have found : (ofNfa twoWays).run? (ofNfa twoWays).start ['a', 'b', 'a'] =
      some 1 := by
    decide +kernel
  rcases ofNfa_simulates twoWays (.inr only) ['a', 'b', 'a'] with
    ⟨determinized, simulates, accepts, -⟩
  rcases simulates occupied with ⟨defined, ends⟩
  exact ⟨only, occupied, found, determinized, defined, ends 1 found, accepts⟩

end Dfa

end PatternAutomata
