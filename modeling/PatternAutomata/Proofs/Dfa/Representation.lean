import PatternAutomata.Proofs.Dfa.Minimization

/-!
# The views of an automaton agree

An automaton keeps its states by number and by members, its transitions in two
tables, its states in two classes and the characters of its transitions in a
list.  However an automaton comes about, from subsets, from records or by
minimization, these views say the same, and the start state is flagged if any
state is.  Minimization puts the start state first.
-/

namespace PatternAutomata.Dfa

variable {dfa : Dfa}

/-- Automata that come about from a nondeterministic one that reaches only its
states, or from records, and by minimizing any number of times. -/
inductive Constructed : Dfa → Prop
  | ofNfa {nfa : Nfa} : nfa.Built →
      nfa.isEmpty = true ∨ nfa.ReachesOnlyStates → Constructed (ofNfa nfa)
  | ofRecords (states : List State) (records : List Record) :
      Constructed (ofRecords states records)
  | minimize {dfa : Dfa} : Constructed dfa → Constructed dfa.minimize

/-- What the parts of an automaton say agrees. -/
structure IsWellFormed (dfa : Dfa) : Prop where
  /-- States are numbered by their places. -/
  id_eq : ∀ (id : Nat) (state : State),
    dfa.states[id]? = some state → state.id = id
  /-- Different states have different members. -/
  members_injective : ∀ (first second : Nat) (state other : State),
    dfa.states[first]? = some state → dfa.states[second]? = some other →
      state.members = other.members → first = second
  /-- The index finds the state with given members and nothing else. -/
  index_iff : ∀ (members : StateSet) (id : Nat),
    dfa.index[members]? = some id ↔
      ∃ state, dfa.states[id]? = some state ∧ state.members = members
  /-- Transitions lead from states to states. -/
  transitions_lt : ∀ (source : Nat) (row : Std.ExtTreeMap Char Nat),
    dfa.transitions[source]? = some row → source < dfa.size ∧
      ∀ (character : Char) (target : Nat),
        row[character]? = some target → target < dfa.size
  /-- The table by members is the one by number with members for numbers. -/
  structural_iff : ∀ (members : StateSet)
      (targets : Std.ExtTreeMap Char StateSet),
    dfa.structural[members]? = some targets ↔
      ∃ (source : Nat) (row : Std.ExtTreeMap Char Nat),
        dfa.transitions[source]? = some row ∧
          members = dfa.members source ∧
          targets = row.map fun _ target => dfa.members target
  /-- The alphabet has every character once. -/
  nodup_alphabet : dfa.alphabet.Nodup
  /-- The alphabet has the characters of the transitions. -/
  mem_alphabet_iff : ∀ character, character ∈ dfa.alphabet ↔
    ∃ (source : Nat) (row : Std.ExtTreeMap Char Nat),
      dfa.transitions[source]? = some row ∧ character ∈ row
  /-- The accepting class has every state once. -/
  nodup_accepting : dfa.accepting.Nodup
  /-- The other class has every state once. -/
  nodup_nonAccepting : dfa.nonAccepting.Nodup
  /-- No state is in both classes. -/
  disjoint : dfa.accepting.Disjoint dfa.nonAccepting
  /-- The classes have the states and nothing else. -/
  mem_classes_iff : ∀ id,
    id ∈ dfa.accepting ∨ id ∈ dfa.nonAccepting ↔ id < dfa.size
  /-- The accepting class has the accepting states. -/
  mem_accepting_iff : ∀ id, id ∈ dfa.accepting ↔
    ∃ state, dfa.states[id]? = some state ∧ state.isFinal = true
  /-- The start state is a state if there is one. -/
  start_lt : 0 < dfa.size → dfa.start < dfa.size
  /-- The start state is flagged if any state is. -/
  isStart_start : ∀ id, dfa.isStart id = true →
    dfa.isStart dfa.start = true

/-! ## Tables and look-ups -/

/-- The views of an automaton agree as far as look-ups tell. -/
structure IsCoherent (dfa : Dfa) : Prop where
  consistent : dfa.IsConsistent
  spells : dfa.SpellsAlphabet
  classified : dfa.Classifies (· < dfa.size)
  hasStart : dfa.HasStart

theorem exists_mem_row {τ : Type} {row : Std.ExtTreeMap Char τ}
    (nonempty : row ≠ ∅) :
    ∃ (character : Char) (target : τ), row[character]? = some target := by
  by_contra absent
  simp only [not_exists] at absent
  apply nonempty
  rw [Std.ExtTreeMap.eq_empty_iff_forall_not_mem]
  intro character member
  rw [Std.ExtTreeMap.mem_iff_isSome_getElem?, Option.isSome_iff_exists]
    at member
  rcases member with ⟨target, found⟩
  exact absent character target found

/-- Tables without empty rows are the same if their entries are. -/
theorem HasNoEmptyRow.ext {κ τ : Type} [Ord κ] [Std.TransOrd κ]
    [Std.LawfulEqOrd κ] {table other : Std.ExtTreeMap κ (Std.ExtTreeMap Char τ)}
    (rows : HasNoEmptyRow table) (otherRows : HasNoEmptyRow other)
    (same : ∀ (key : κ) (character : Char),
      (table[key]?.bind fun row => row[character]?) =
        other[key]?.bind fun row => row[character]?) : table = other := by
  apply Std.ExtTreeMap.ext_getElem?
  intro key
  have entries := same key
  cases found : table[key]? with
  | none =>
      cases otherFound : other[key]? with
      | none => rfl
      | some row =>
          rcases exists_mem_row (otherRows key row otherFound) with
            ⟨character, target, entry⟩
          have missing := entries character
          rw [found, otherFound, Option.bind_some, entry] at missing
          exact nomatch missing
  | some row =>
      cases otherFound : other[key]? with
      | none =>
          rcases exists_mem_row (rows key row found) with
            ⟨character, target, entry⟩
          have missing := entries character
          rw [found, otherFound, Option.bind_some, entry] at missing
          exact nomatch missing
      | some otherRow =>
          rw [found, otherFound] at entries
          exact congrArg some (Std.ExtTreeMap.ext_getElem? fun character =>
            entries character)

theorem isFinal_eq_true_iff {id : Nat} :
    dfa.isFinal id = true ↔
      ∃ state, dfa.states[id]? = some state ∧ state.isFinal = true := by
  rw [isFinal]
  cases dfa.states[id]? <;> simp

theorem exists_target?_iff {character : Char} :
    (∃ source target, dfa.target? source character = some target) ↔
      ∃ (source : Nat) (row : Std.ExtTreeMap Char Nat),
        dfa.transitions[source]? = some row ∧ character ∈ row := by
  simp only [target?, Option.bind_eq_some_iff,
    Std.ExtTreeMap.mem_iff_isSome_getElem?, Option.isSome_iff_exists]
  constructor
  · rintro ⟨source, target, row, known, found⟩
    exact ⟨source, row, known, target, found⟩
  · rintro ⟨source, row, known, target, found⟩
    exact ⟨source, target, row, known, found⟩

namespace IsConsistent

variable {source : Nat} {row : Std.ExtTreeMap Char Nat}

/-- A row starts at a state. -/
theorem lt_size_of_row (consistent : dfa.IsConsistent)
    (known : dfa.transitions[source]? = some row) : source < dfa.size := by
  rcases exists_mem_row (consistent.transitions_rows source row known) with
    ⟨character, target, found⟩
  have edge : dfa.target? source character = some target := by
    rw [target?, known]
    exact found
  exact (consistent.lt_of_target edge).1

/-- The rows of a state in the two tables have the same entries. -/
theorem row_eq (consistent : dfa.IsConsistent)
    {targets : Std.ExtTreeMap Char StateSet}
    (known : dfa.transitions[source]? = some row)
    (structural : dfa.structural[dfa.members source]? = some targets) :
    targets = row.map fun _ target => dfa.members target := by
  apply Std.ExtTreeMap.ext_getElem?
  intro character
  have same := consistent.structural_eq (dfa.members source) character
  rw [structuralArrow?, structural, Option.bind_some,
    consistent.idOf?_members (consistent.lt_size_of_row known),
    Option.bind_some, target?, known, Option.bind_some] at same
  rw [same, Std.ExtTreeMap.getElem?_map]

theorem structural_iff (consistent : dfa.IsConsistent) (members : StateSet)
    (targets : Std.ExtTreeMap Char StateSet) :
    dfa.structural[members]? = some targets ↔
      ∃ (source : Nat) (row : Std.ExtTreeMap Char Nat),
        dfa.transitions[source]? = some row ∧
          members = dfa.members source ∧
          targets = row.map fun _ target => dfa.members target := by
  constructor
  · intro known
    rcases exists_mem_row (consistent.structural_rows members targets known)
      with ⟨character, reached, found⟩
    have same := consistent.structural_eq members character
    rw [structuralArrow?, known, Option.bind_some, found, eq_comm,
      Option.bind_eq_some_iff] at same
    rcases same with ⟨source, source_eq, edge⟩
    rcases Option.map_eq_some_iff.1 edge with ⟨target, edge, -⟩
    rcases Option.bind_eq_some_iff.1 edge with ⟨row, rowKnown, -⟩
    rcases consistent.idOf?_iff.1 source_eq with ⟨-, rfl⟩
    exact ⟨source, row, rowKnown, rfl, consistent.row_eq rowKnown known⟩
  · rintro ⟨source, row, known, rfl, rfl⟩
    rcases exists_mem_row (consistent.transitions_rows source row known) with
      ⟨character, target, found⟩
    have same := consistent.structural_eq (dfa.members source) character
    rw [consistent.idOf?_members (consistent.lt_size_of_row known),
      Option.bind_some, target?, known, Option.bind_some, found,
      structuralArrow?, Option.map_some, Option.bind_eq_some_iff] at same
    rcases same with ⟨targets, structural, -⟩
    rw [structural, consistent.row_eq known structural]

end IsConsistent

theorem IsCoherent.mem_alphabet_iff (coherent : dfa.IsCoherent)
    {character : Char} :
    character ∈ dfa.alphabet ↔
      ∃ source target, dfa.target? source character = some target := by
  constructor
  · exact coherent.spells.occurs character
  · rintro ⟨source, target, edge⟩
    exact coherent.consistent.mem_alphabet edge

/-- What look-ups tell is how the parts are. -/
theorem IsCoherent.isWellFormed (coherent : dfa.IsCoherent) :
    dfa.IsWellFormed where
  id_eq _ _ := coherent.consistent.id_eq
  members_injective := by
    intro first second state other found otherFound same
    apply coherent.consistent.eq_of_members_eq
    · exact lt_size_iff.2 ⟨state, found⟩
    · exact lt_size_iff.2 ⟨other, otherFound⟩
    · rw [members_of_states found, members_of_states otherFound, same]
  index_iff := by
    intro members id
    have inverse : dfa.index[members]? = some id ↔
        id < dfa.size ∧ dfa.members id = members :=
      coherent.consistent.idOf?_iff
    rw [inverse, lt_size_iff]
    constructor
    · rintro ⟨⟨state, found⟩, same⟩
      exact ⟨state, found, members_of_states found ▸ same⟩
    · rintro ⟨state, found, same⟩
      exact ⟨⟨state, found⟩, (members_of_states found).trans same⟩
  transitions_lt := by
    intro source row known
    refine ⟨coherent.consistent.lt_size_of_row known, ?_⟩
    intro character target found
    have edge : dfa.target? source character = some target := by
      rw [target?, known]
      exact found
    exact (coherent.consistent.lt_of_target edge).2
  structural_iff := coherent.consistent.structural_iff
  nodup_alphabet := coherent.spells.nodup
  mem_alphabet_iff := by
    intro character
    rw [← exists_target?_iff]
    exact coherent.mem_alphabet_iff
  nodup_accepting := coherent.classified.nodup_accepting
  nodup_nonAccepting := coherent.classified.nodup_nonAccepting
  disjoint := by
    intro id accepting nonAccepting
    have final := ((coherent.classified.mem_accepting_iff id).1 accepting).2
    rw [((coherent.classified.mem_nonAccepting_iff id).1 nonAccepting).2]
      at final
    cases final
  mem_classes_iff := by
    intro id
    rw [coherent.classified.mem_accepting_iff,
      coherent.classified.mem_nonAccepting_iff, ← and_or_left]
    apply and_iff_left
    cases dfa.isFinal id <;> simp
  mem_accepting_iff := by
    intro id
    rw [coherent.classified.mem_accepting_iff, isFinal_eq_true_iff]
    apply and_iff_right_of_imp
    rintro ⟨state, found, -⟩
    exact lt_size_iff.2 ⟨state, found⟩
  start_lt := coherent.hasStart.start_lt
  isStart_start := coherent.hasStart.isStart_start

/-! ## Automata that come about -/

theorem isCoherent_ofRecords (states : List State) (records : List Record) :
    (ofRecords states records).IsCoherent where
  consistent := isConsistent_ofRecords states records
  spells := spellsAlphabet_ofRecords states records
  classified := classifies_ofRecords states records
  hasStart := hasStart_ofRecords states records

theorem isCoherent_minimize (dfa : Dfa) : dfa.minimize.IsCoherent := by
  rw [minimize, merge_eq]
  exact isCoherent_ofRecords _ _

theorem isCoherent_empty : (empty []).IsCoherent :=
  isCoherent_ofRecords [] []

/-- The characters on the edges that are reached are those of transitions. -/
theorem IsSubsetAutomaton.spellsAlphabet {nfa : Nfa}
    (subsets : dfa.IsSubsetAutomaton nfa) (only : nfa.ReachesOnlyStates)
    (built : nfa.Built) : dfa.SpellsAlphabet := by
  constructor
  · rw [subsets.alphabet]
    exact nfa.nodup_alphabet
  · intro character member
    rw [subsets.alphabet, Nfa.mem_alphabet_iff] at member
    rcases member with ⟨id, visited, member⟩
    rcases (Nfa.mem_breadthFirst_iff only).1 visited with ⟨word, path⟩
    rcases built.hasTargets.exists_mem_targets member with ⟨target, edge⟩
    have spelled : target ∈ nfa.ends (word ++ [character]) :=
      path.trans (.ofEdge edge)
    have defined := (subsets.isSome_run?_iff only).2 ⟨target, spelled⟩
    rw [run?_append_singleton, Option.isSome_iff_exists] at defined
    rcases defined with ⟨reached, found⟩
    rcases Option.bind_eq_some_iff.1 found with ⟨source, -, transition⟩
    exact ⟨source, reached, transition⟩

theorem isCoherent_ofNfa {nfa : Nfa} (built : nfa.Built)
    (only : nfa.isEmpty = true ∨ nfa.ReachesOnlyStates) :
    (ofNfa nfa).IsCoherent := by
  rcases only with stateless | only
  · have silent : nfa.alphabet = [] := by
      rw [Nfa.alphabet, Nfa.breadthFirst_of_isEmpty stateless]
      rfl
    rw [ofNfa, if_pos stateless, silent]
    exact isCoherent_empty
  · have subsets := isSubsetAutomaton_ofNfa only
    exact ⟨subsets.consistent, subsets.spellsAlphabet only built,
      subsets.classified, subsets.hasStart only built⟩

theorem Constructed.isCoherent (constructed : dfa.Constructed) :
    dfa.IsCoherent := by
  cases constructed with
  | ofNfa built only => exact isCoherent_ofNfa built only
  | ofRecords states records => exact isCoherent_ofRecords states records
  | minimize _ => exact isCoherent_minimize _

/-- However an automaton comes about, its parts agree, and minimization puts
the start state first. -/
theorem isWellFormed_and_start_minimize (dfa : Dfa)
    (constructed : dfa.Constructed) :
    dfa.IsWellFormed ∧ dfa.minimize.start = 0 := by
  have coherent := constructed.isCoherent
  have separates := coherent.consistent.separates_stablePartition.1
  exact ⟨coherent.isWellFormed, separates.start_merge coherent.hasStart⟩

theorem isWellFormed_and_start_minimize_loopWithDeadEnd :
    (ofNfa loopWithDeadEnd).minimize.Constructed ∧
      (ofNfa loopWithDeadEnd).minimize.size = 3 ∧
      (ofNfa loopWithDeadEnd).minimize.IsWellFormed ∧
      (ofNfa loopWithDeadEnd).minimize.minimize.start = 0 := by
  have constructed : (ofNfa loopWithDeadEnd).minimize.Constructed :=
    .minimize (.ofNfa loopWithDeadEnd_built
      (.inr loopWithDeadEnd_reachesOnlyStates))
  refine ⟨constructed, ?_, isWellFormed_and_start_minimize _ constructed⟩
  decide +kernel

end PatternAutomata.Dfa
