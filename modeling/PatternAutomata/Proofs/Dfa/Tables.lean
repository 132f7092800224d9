import PatternAutomata.Dfa.Minimize

/-!
# The tables of deterministic automata

An automaton is consistent if its tables agree: states are numbered by their
places, the index inverts the members of states, transitions lead from states
to states by characters of the alphabet, and the table by members says the same
as the table by numbers.  Each operation on automata keeps this, and its effect
is given by what it does to look-ups.
-/

namespace PatternAutomata.Dfa

variable {dfa : Dfa}

/-- The entry for a set of members and a character in the table by members. -/
def structuralArrow? (dfa : Dfa) (members : StateSet) (character : Char) :
    Option StateSet :=
  dfa.structural[members]?.bind fun targets => targets[character]?

/-- Every row of a table of transitions has an entry. -/
def HasNoEmptyRow {κ τ : Type} [Ord κ] [Std.TransOrd κ]
    (table : Std.ExtTreeMap κ (Std.ExtTreeMap Char τ)) : Prop :=
  ∀ (key : κ) (row : Std.ExtTreeMap Char τ), table[key]? = some row → row ≠ ∅

theorem HasNoEmptyRow.alter {κ τ : Type} [Ord κ] [Std.TransOrd κ]
    [Std.LawfulEqOrd κ] {table : Std.ExtTreeMap κ (Std.ExtTreeMap Char τ)}
    (rows : HasNoEmptyRow table) (key : κ) (character : Char) (target : τ) :
    HasNoEmptyRow (table.alter key fun row? =>
      some ((row?.getD ∅).insert character target)) := by
  intro other row found
  rw [Std.ExtTreeMap.getElem?_alter] at found
  split at found
  · cases found
    exact Std.ExtTreeMap.insert_ne_empty
  · exact rows other row found

/-- The tables of the automaton agree. -/
structure IsConsistent (dfa : Dfa) : Prop where
  id_eq : ∀ {id : Nat} {state : State},
    dfa.states[id]? = some state → state.id = id
  idOf?_iff : ∀ {members : StateSet} {id : Nat},
    dfa.idOf? members = some id ↔
      id < dfa.size ∧ dfa.members id = members
  lt_of_target : ∀ {source target : Nat} {character : Char},
    dfa.target? source character = some target →
      source < dfa.size ∧ target < dfa.size
  structural_eq : ∀ (members : StateSet) (character : Char),
    dfa.structuralArrow? members character =
      (dfa.idOf? members).bind fun source =>
        (dfa.target? source character).map dfa.members
  mem_alphabet : ∀ {source target : Nat} {character : Char},
    dfa.target? source character = some target →
      character ∈ dfa.alphabet
  transitions_rows : HasNoEmptyRow dfa.transitions
  structural_rows : HasNoEmptyRow dfa.structural

/-! ## Rows -/

/-- The transitions from a state, by character. -/
def row (dfa : Dfa) (source : Nat) : List (Char × Nat) :=
  (dfa.transitions[source]?.getD ∅).toList

theorem mem_row_iff {source target : Nat} {character : Char} :
    (character, target) ∈ dfa.row source ↔
      dfa.target? source character = some target := by
  rw [row, Std.ExtTreeMap.mem_toList_iff_getElem?_eq_some, target?]
  cases dfa.transitions[source]? <;> simp

theorem pairwise_row (dfa : Dfa) (source : Nat) :
    (dfa.row source).Pairwise fun first second => first.1 < second.1 := by
  apply Std.ExtTreeMap.ordered_keys_toList.imp
  intro first second below
  exact compareOfLessAndEq_eq_lt.1 below

/-! ## Runs -/

@[simp]
theorem run?_nil (dfa : Dfa) (source : Nat) :
    dfa.run? source [] = some source :=
  rfl

@[simp]
theorem run?_cons (dfa : Dfa) (source : Nat) (character : Char)
    (word : List Char) :
    dfa.run? source (character :: word) =
      (dfa.target? source character).bind fun target =>
        dfa.run? target word :=
  rfl

theorem run?_append (dfa : Dfa) (source : Nat)
    (word continuation : List Char) :
    dfa.run? source (word ++ continuation) =
      (dfa.run? source word).bind fun middle =>
        dfa.run? middle continuation := by
  rw [run?, List.foldlM_append]
  rfl

theorem run?_append_singleton (dfa : Dfa) (source : Nat) (word : List Char)
    (character : Char) :
    dfa.run? source (word ++ [character]) =
      (dfa.run? source word).bind fun middle =>
        dfa.target? middle character := by
  rw [run?_append]
  congr 1
  ext1 middle
  exact Option.bind_fun_some _

/-! ## States -/

theorem members_of_states {id : Nat} {state : State}
    (found : dfa.states[id]? = some state) :
    dfa.members id = state.members := by
  rw [members, found]
  rfl

theorem lt_size_iff {id : Nat} :
    id < dfa.size ↔ ∃ state, dfa.states[id]? = some state := by
  rw [size, ← Option.isSome_iff_exists, isSome_getElem?]

/-- Only states have flags. -/
theorem lt_size_of_any {id : Nat} {flag : State → Bool}
    (flagged : dfa.states[id]?.any flag = true) : id < dfa.size := by
  rcases (Option.any_eq_true_iff_get _ _).1 flagged with ⟨isSome, -⟩
  exact lt_size_iff.2 ⟨_, (Option.some_get isSome).symm⟩

/-- Only states have members. -/
theorem lt_size_of_mem_members {id : Nat} {member : StateId}
    (known : member ∈ dfa.members id) : id < dfa.size := by
  rw [lt_size_iff]
  cases found : dfa.states[id]? with
  | none => simp [members, found] at known
  | some state => exact ⟨state, rfl⟩

/-- The start state is a state if there is one, and it is flagged as a start if
any state is. -/
structure HasStart (dfa : Dfa) : Prop where
  start_lt : 0 < dfa.size → dfa.start < dfa.size
  isStart_start : ∀ id, dfa.isStart id = true →
    dfa.isStart dfa.start = true

/-! ## Acceptance -/

/-- How a word ends from a state: in an accepting state, in another one, or
with a missing transition. -/
def outcome? (dfa : Dfa) (source : Nat) (word : List Char) : Option Bool :=
  (dfa.run? source word).map dfa.isFinal

theorem outcome_ext {first second : Option Bool}
    (defined : first.isSome = true ↔ second.isSome = true)
    (accepted : first = some true ↔ second = some true) :
    first = second := by
  rcases first with _ | _ | _ <;> rcases second with _ | _ | _ <;> simp_all

theorem accepts_eq_true_iff (word : List Char) :
    dfa.accepts word = true ↔ dfa.outcome? dfa.start word = some true := by
  have occupied {id : Nat} (final : dfa.isFinal id = true) :
      dfa.states.isEmpty = false :=
    Array.isEmpty_eq_false_iff.2
      (Array.size_pos_iff.1 (Nat.zero_lt_of_lt (lt_size_of_any final)))
  rw [accepts, outcome?, Bool.and_eq_true, Bool.not_eq_true']
  cases dfa.run? dfa.start word with
  | none => simp
  | some target => simpa using occupied

theorem accepts_eq_of_outcome?_eq {other : Dfa} {word : List Char}
    (same : dfa.outcome? dfa.start word = other.outcome? other.start word) :
    dfa.accepts word = other.accepts word := by
  rw [Bool.eq_iff_iff, accepts_eq_true_iff, accepts_eq_true_iff, same]

theorem accepts_eq_false_of_size_eq_zero (none_there : dfa.size = 0)
    (word : List Char) : dfa.accepts word = false := by
  rw [accepts, Array.isEmpty_iff_size_eq_zero.2 none_there]
  rfl

/-! ## Consistent automata -/

namespace IsConsistent

theorem eq_of_members_eq (consistent : dfa.IsConsistent) {id other : Nat}
    (inside : id < dfa.size) (otherInside : other < dfa.size)
    (same : dfa.members id = dfa.members other) : id = other := by
  have first := consistent.idOf?_iff.2 ⟨inside, same⟩
  have second := consistent.idOf?_iff.2 ⟨otherInside, rfl⟩
  exact Option.some.inj (first.symm.trans second)

theorem idOf?_members (consistent : dfa.IsConsistent) {id : Nat}
    (inside : id < dfa.size) : dfa.idOf? (dfa.members id) = some id :=
  consistent.idOf?_iff.2 ⟨inside, rfl⟩

theorem structuralTarget?_eq (consistent : dfa.IsConsistent) {source : Nat}
    (inside : source < dfa.size) (character : Char) :
    dfa.structuralTarget? source character =
      (dfa.target? source character).map dfa.members := by
  change dfa.structuralArrow? (dfa.members source) character = _
  rw [consistent.structural_eq, consistent.idOf?_members inside]
  rfl

theorem lt_size_of_run? (consistent : dfa.IsConsistent) {source target : Nat}
    {word : List Char} (inside : source < dfa.size)
    (found : dfa.run? source word = some target) : target < dfa.size := by
  induction word generalizing source with
  | nil =>
      rw [run?_nil, Option.some.injEq] at found
      exact found ▸ inside
  | cons character rest reached =>
      rw [run?_cons, Option.bind_eq_some_iff] at found
      rcases found with ⟨middle, edge, found⟩
      exact reached (consistent.lt_of_target edge).2 found

end IsConsistent

theorem isConsistent_empty (alphabet : List Char) :
    (empty alphabet).IsConsistent where
  id_eq found := by simp [empty] at found
  idOf?_iff := by simp [empty, idOf?, size]
  lt_of_target found := by simp [empty, target?] at found
  structural_eq := by simp [empty, structuralArrow?, idOf?]
  mem_alphabet found := by simp [empty, target?] at found
  transitions_rows _ _ found := by simp [empty] at found
  structural_rows _ _ found := by simp [empty] at found

/-! ## Adding states -/

theorem addState_of_known {members : StateSet} {id : Nat}
    (known : dfa.idOf? members = some id) (isStart isFinal : Bool) :
    dfa.addState members isStart isFinal =
      (id, { dfa with states := dfa.states.modify id fun state =>
        { state with
          isStart := state.isStart || isStart
          isFinal := state.isFinal || isFinal } }) := by
  rw [addState, known]

theorem addState_of_unknown {members : StateSet}
    (unknown : dfa.idOf? members = none) (isStart isFinal : Bool) :
    dfa.addState members isStart isFinal =
      (dfa.size, { dfa with
        states := dfa.states.push (State.new dfa.size members isStart isFinal)
        index := dfa.index.insert members dfa.size }) := by
  rw [addState, unknown]
  rfl

/-- Adding changes one state only, which takes up the flags. -/
theorem IsConsistent.states_addState (consistent : dfa.IsConsistent)
    (members : StateSet) (isStart isFinal : Bool) (id : Nat) :
    (dfa.addState members isStart isFinal).2.states[id]? =
      if id = (dfa.addState members isStart isFinal).1 then
        some ⟨id, members, dfa.isStart id || isStart,
          dfa.isFinal id || isFinal, dfa.isMarked id⟩
      else dfa.states[id]? := by
  cases known : dfa.idOf? members with
  | some found =>
      rw [addState_of_known known, Array.getElem?_modify]
      rcases consistent.idOf?_iff.1 known with ⟨inside, rfl⟩
      rcases lt_size_iff.1 inside with ⟨state, lookup⟩
      by_cases same : id = found
      · subst same
        rw [if_pos rfl, if_pos rfl, lookup, Dfa.isStart, Dfa.isFinal,
          Dfa.isMarked, lookup, members_of_states lookup]
        simp [consistent.id_eq lookup]
      · rw [if_neg (Ne.symm same), if_neg same]
  | none =>
      rw [addState_of_unknown known, Array.getElem?_push]
      change (if id = dfa.size then _ else _) = if id = dfa.size then _ else _
      by_cases same : id = dfa.size
      · subst same
        have absent : dfa.states[dfa.size]? = none :=
          Array.getElem?_eq_none (Nat.le_refl _)
        rw [if_pos rfl, if_pos rfl, Dfa.isStart, Dfa.isFinal, Dfa.isMarked,
          absent]
        simp [State.new]
      · rw [if_neg same, if_neg same]

@[simp]
theorem target?_addState (members : StateSet) (isStart isFinal : Bool)
    (source : Nat) (character : Char) :
    (dfa.addState members isStart isFinal).2.target? source character =
      dfa.target? source character := by
  rw [addState]
  split <;> rfl

@[simp]
theorem structuralArrow?_addState (members source : StateSet)
    (isStart isFinal : Bool) (character : Char) :
    (dfa.addState members isStart isFinal).2.structuralArrow?
        source character =
      dfa.structuralArrow? source character := by
  rw [addState]
  split <;> rfl

@[simp]
theorem transitions_addState (members : StateSet) (isStart isFinal : Bool) :
    (dfa.addState members isStart isFinal).2.transitions =
      dfa.transitions := by
  rw [addState]
  split <;> rfl

@[simp]
theorem structural_addState (members : StateSet) (isStart isFinal : Bool) :
    (dfa.addState members isStart isFinal).2.structural =
      dfa.structural := by
  rw [addState]
  split <;> rfl

@[simp]
theorem alphabet_addState (members : StateSet) (isStart isFinal : Bool) :
    (dfa.addState members isStart isFinal).2.alphabet = dfa.alphabet := by
  rw [addState]
  split <;> rfl

@[simp]
theorem accepting_addState (members : StateSet) (isStart isFinal : Bool) :
    (dfa.addState members isStart isFinal).2.accepting = dfa.accepting := by
  rw [addState]
  split <;> rfl

@[simp]
theorem nonAccepting_addState (members : StateSet)
    (isStart isFinal : Bool) :
    (dfa.addState members isStart isFinal).2.nonAccepting =
      dfa.nonAccepting := by
  rw [addState]
  split <;> rfl

@[simp]
theorem start_addState (members : StateSet) (isStart isFinal : Bool) :
    (dfa.addState members isStart isFinal).2.start = dfa.start := by
  rw [addState]
  split <;> rfl

theorem size_addState (members : StateSet) (isStart isFinal : Bool) :
    (dfa.addState members isStart isFinal).2.size =
      if (dfa.idOf? members).isSome then dfa.size else dfa.size + 1 := by
  cases known : dfa.idOf? members with
  | some found =>
      rw [addState_of_known known]
      exact Array.size_modify
  | none =>
      rw [addState_of_unknown known]
      exact Array.size_push _

theorem size_le_size_addState (members : StateSet) (isStart isFinal : Bool) :
    dfa.size ≤ (dfa.addState members isStart isFinal).2.size := by
  rw [size_addState]
  split <;> omega

theorem idOf?_addState (members other : StateSet) (isStart isFinal : Bool) :
    (dfa.addState members isStart isFinal).2.idOf? other =
      if other = members then some (dfa.addState members isStart isFinal).1
      else dfa.idOf? other := by
  cases known : dfa.idOf? members with
  | some found =>
      rw [addState_of_known known]
      split
      · next same => exact same ▸ known
      · rfl
  | none =>
      rw [addState_of_unknown known]
      change (dfa.index.insert members dfa.size)[other]? = _
      rw [Std.ExtTreeMap.getElem?_insert]
      simp only [Std.LawfulEqCmp.compare_eq_iff_eq, eq_comm (a := members)]
      rfl

namespace IsConsistent

theorem members_addState (consistent : dfa.IsConsistent)
    (members : StateSet) (isStart isFinal : Bool) (id : Nat) :
    (dfa.addState members isStart isFinal).2.members id =
      if id = (dfa.addState members isStart isFinal).1 then members
      else dfa.members id := by
  rw [Dfa.members, consistent.states_addState]
  split <;> rfl

/-- The added state is a state of the new automaton. -/
theorem fst_addState_lt (consistent : dfa.IsConsistent) (members : StateSet)
    (isStart isFinal : Bool) :
    (dfa.addState members isStart isFinal).1 <
      (dfa.addState members isStart isFinal).2.size := by
  rw [lt_size_iff, consistent.states_addState, if_pos rfl]
  exact ⟨_, rfl⟩

theorem lt_size_addState_iff (consistent : dfa.IsConsistent)
    (members : StateSet) (isStart isFinal : Bool) (id : Nat) :
    id < (dfa.addState members isStart isFinal).2.size ↔
      id < dfa.size ∨ id = (dfa.addState members isStart isFinal).1 := by
  rw [lt_size_iff, lt_size_iff, consistent.states_addState]
  split
  · next same => simp [same]
  · next differs => simp [differs]

/-- Old states keep their members. -/
theorem members_addState_of_lt (consistent : dfa.IsConsistent)
    (members : StateSet) (isStart isFinal : Bool) {id : Nat}
    (inside : id < dfa.size) :
    (dfa.addState members isStart isFinal).2.members id =
      dfa.members id := by
  rw [consistent.members_addState]
  split
  · next same =>
      cases known : dfa.idOf? members with
      | some found =>
          rw [addState_of_known known] at same
          exact same ▸ (consistent.idOf?_iff.1 known).2.symm
      | none =>
          rw [addState_of_unknown known] at same
          exact absurd inside (same ▸ Nat.lt_irrefl _)
  · rfl

/-- Old transitions lead to the same members. -/
theorem map_members_addState (consistent : dfa.IsConsistent)
    (members : StateSet) (isStart isFinal : Bool) (source : Nat)
    (character : Char) :
    (dfa.target? source character).map
        (dfa.addState members isStart isFinal).2.members =
      (dfa.target? source character).map dfa.members := by
  apply Option.map_congr
  intro target found
  exact consistent.members_addState_of_lt members isStart isFinal
    (consistent.lt_of_target found).2

/-- A state is found by its members after the addition. -/
theorem idOf?_addState_iff (consistent : dfa.IsConsistent)
    (members other : StateSet) (isStart isFinal : Bool) (id : Nat) :
    (dfa.addState members isStart isFinal).2.idOf? other = some id ↔
      id < (dfa.addState members isStart isFinal).2.size ∧
        (dfa.addState members isStart isFinal).2.members id = other := by
  have kept (inside : id < dfa.size) :=
    consistent.members_addState_of_lt members isStart isFinal inside
  rw [idOf?_addState, consistent.lt_size_addState_iff,
    consistent.members_addState] at *
  by_cases new : id = (dfa.addState members isStart isFinal).1
  · rw [if_pos new] at kept ⊢
    by_cases same : other = members
    · rw [if_pos same]
      exact iff_of_true (congrArg some new.symm) ⟨.inr new, same.symm⟩
    · rw [if_neg same]
      refine iff_of_false ?_ fun both => same both.2.symm
      intro found
      rcases consistent.idOf?_iff.1 found with ⟨inside, found⟩
      exact same (found.symm.trans (kept inside).symm)
  · rw [if_neg new, or_iff_left new]
    by_cases same : other = members
    · rw [if_pos same]
      refine iff_of_false (fun found => new (Option.some.inj found).symm) ?_
      intro both
      rw [same, ← consistent.idOf?_iff] at both
      rw [addState_of_known both] at new
      exact new rfl
    · rw [if_neg same]
      exact consistent.idOf?_iff

/-- The added state has the transitions of the old state with its members, and
none if there was no such state. -/
theorem target?_fst_addState (consistent : dfa.IsConsistent)
    (members : StateSet) (isStart isFinal : Bool) (character : Char) :
    dfa.target? (dfa.addState members isStart isFinal).1 character =
      (dfa.idOf? members).bind fun source =>
        dfa.target? source character := by
  cases known : dfa.idOf? members with
  | some found =>
      rw [addState_of_known known]
      rfl
  | none =>
      rw [addState_of_unknown known, Option.bind_none,
        Option.eq_none_iff_forall_ne_some]
      intro target found
      exact Nat.lt_irrefl _ (consistent.lt_of_target found).1

theorem addState (consistent : dfa.IsConsistent) (members : StateSet)
    (isStart isFinal : Bool) :
    (dfa.addState members isStart isFinal).2.IsConsistent where
  id_eq := by
    intro id state found
    rw [consistent.states_addState] at found
    split at found
    · cases found
      rfl
    · exact consistent.id_eq found
  idOf?_iff := by
    intro other id
    exact consistent.idOf?_addState_iff members other isStart isFinal id
  lt_of_target := by
    intro source target character found
    rw [target?_addState] at found
    have larger := dfa.size_le_size_addState members isStart isFinal
    have inside := consistent.lt_of_target found
    omega
  structural_eq := by
    intro source character
    rw [structuralArrow?_addState, idOf?_addState, consistent.structural_eq]
    simp only [target?_addState, consistent.map_members_addState]
    split
    · next same =>
        rw [same, Option.bind_some, consistent.target?_fst_addState,
          Option.map_bind]
        rfl
    · rfl
  mem_alphabet := by
    intro source target character found
    rw [target?_addState] at found
    rw [alphabet_addState]
    exact consistent.mem_alphabet found
  transitions_rows := by
    rw [transitions_addState]
    exact consistent.transitions_rows
  structural_rows := by
    rw [structural_addState]
    exact consistent.structural_rows

end IsConsistent

/-! ## Adding transitions -/

section AddTransition

variable (source : Nat) (character : Char) (target : Nat)

theorem target?_addTransition (other : Nat) (label : Char) :
    (dfa.addTransition source character target).target? other label =
      if other = source ∧ label = character then some target
      else dfa.target? other label := by
  simp only [target?, addTransition, Std.ExtTreeMap.getElem?_alter,
    Std.LawfulEqCmp.compare_eq_iff_eq]
  by_cases same : source = other
  · subst same
    cases dfa.transitions[source]? <;>
      simp [Std.ExtTreeMap.getElem?_insert, eq_comm (a := label)]
  · rw [if_neg same, if_neg fun both => same both.1.symm]

theorem structuralArrow?_addTransition (members : StateSet)
    (label : Char) :
    (dfa.addTransition source character target).structuralArrow?
        members label =
      if members = dfa.members source ∧ label = character then
        some (dfa.members target)
      else dfa.structuralArrow? members label := by
  simp only [structuralArrow?, addTransition, Std.ExtTreeMap.getElem?_alter,
    Std.LawfulEqCmp.compare_eq_iff_eq]
  by_cases same : dfa.members source = members
  · subst same
    cases dfa.structural[dfa.members source]? <;>
      simp [Std.ExtTreeMap.getElem?_insert, eq_comm (a := label)]
  · rw [if_neg same, if_neg fun both => same both.1.symm]

theorem IsConsistent.addTransition {source : Nat} {character : Char}
    {target : Nat} (consistent : dfa.IsConsistent)
    (sourceInside : source < dfa.size) (targetInside : target < dfa.size)
    (known : character ∈ dfa.alphabet) :
    (dfa.addTransition source character target).IsConsistent where
  id_eq := consistent.id_eq
  idOf?_iff := consistent.idOf?_iff
  lt_of_target := by
    intro other reached label found
    rw [target?_addTransition] at found
    split at found
    · next both =>
        cases found
        exact ⟨both.1 ▸ sourceInside, targetInside⟩
    · exact consistent.lt_of_target found
  structural_eq := by
    intro members label
    rw [structuralArrow?_addTransition, consistent.structural_eq]
    change _ = (dfa.idOf? members).bind fun other => Option.map dfa.members _
    simp only [target?_addTransition]
    by_cases same : members = dfa.members source
    · rw [same, consistent.idOf?_members sourceInside]
      simp only [true_and, Option.bind_some]
      split <;> simp
    · rw [if_neg fun both => same both.1]
      apply Option.bind_congr
      intro other found
      rw [if_neg]
      rintro ⟨rfl, -⟩
      exact same (consistent.idOf?_iff.1 found).2.symm
  mem_alphabet := by
    intro other reached label found
    rw [target?_addTransition] at found
    split at found
    · next both => exact both.2 ▸ known
    · exact consistent.mem_alphabet found
  transitions_rows := consistent.transitions_rows.alter source _ _
  structural_rows := consistent.structural_rows.alter _ _ _

end AddTransition

/-! ## Bookkeeping -/

/-- Consistency does not depend on the flags of states, the start state and
the classes, and the alphabet may grow. -/
theorem IsConsistent.transfer {other : Dfa} (consistent : dfa.IsConsistent)
    (states : ∀ id : Nat,
      (other.states[id]?).map (fun state => (state.id, state.members)) =
        (dfa.states[id]?).map fun state => (state.id, state.members))
    (index : other.index = dfa.index)
    (transitions : other.transitions = dfa.transitions)
    (structural : other.structural = dfa.structural)
    (alphabet : ∀ character ∈ dfa.alphabet, character ∈ other.alphabet) :
    other.IsConsistent := by
  have members : other.members = dfa.members := by
    ext1 id
    have mapped := congrArg (Option.map Prod.snd) (states id)
    simp only [Option.map_map] at mapped
    exact congrArg (Option.getD · ∅) mapped
  have inside (id : Nat) : id < other.size ↔ id < dfa.size := by
    have mapped := congrArg Option.isSome (states id)
    rw [Option.isSome_map, Option.isSome_map] at mapped
    rw [lt_size_iff, lt_size_iff, ← Option.isSome_iff_exists, mapped,
      Option.isSome_iff_exists]
  have target? : other.target? = dfa.target? := by
    unfold Dfa.target?
    rw [transitions]
  have idOf? : other.idOf? = dfa.idOf? := by
    unfold Dfa.idOf?
    rw [index]
  constructor
  case id_eq =>
    intro id state found
    have mapped := states id
    rw [found] at mapped
    rcases Option.map_eq_some_iff.1 mapped.symm with ⟨old, oldFound, equal⟩
    rw [← consistent.id_eq oldFound]
    exact (Prod.ext_iff.1 equal).1.symm
  case idOf?_iff =>
    intro set id
    rw [idOf?, inside, members]
    exact consistent.idOf?_iff
  case lt_of_target =>
    intro source target character found
    rw [target?] at found
    rw [inside, inside]
    exact consistent.lt_of_target found
  case structural_eq =>
    intro set character
    rw [idOf?, target?, members, ← consistent.structural_eq,
      structuralArrow?, structural]
    rfl
  case mem_alphabet =>
    intro source target character found
    rw [target?] at found
    exact alphabet character (consistent.mem_alphabet found)
  case transitions_rows =>
    rw [transitions]
    exact consistent.transitions_rows
  case structural_rows =>
    rw [structural]
    exact consistent.structural_rows

/-- Recording the class of a state changes the lists of classes only. -/
theorem exists_classify_eq (dfa : Dfa) (id : Nat) :
    ∃ accepting nonAccepting,
      dfa.classify id =
        { dfa with accepting := accepting, nonAccepting := nonAccepting } := by
  unfold classify
  split
  · split
    · exact ⟨_, _, rfl⟩
    · exact ⟨_, _, rfl⟩
  · split
    · exact ⟨_, _, rfl⟩
    · exact ⟨_, _, rfl⟩

theorem IsConsistent.classify (consistent : dfa.IsConsistent) (id : Nat) :
    (dfa.classify id).IsConsistent := by
  rcases dfa.exists_classify_eq id with ⟨accepting, nonAccepting, equal⟩
  rw [equal]
  exact consistent.transfer (fun _ => rfl) rfl rfl rfl
    fun _ member => member

/-- The classes list the recorded states, each once and in the class that its
flag asks for. -/
structure Classifies (dfa : Dfa) (recorded : Nat → Prop) : Prop where
  nodup_accepting : dfa.accepting.Nodup
  nodup_nonAccepting : dfa.nonAccepting.Nodup
  mem_accepting_iff : ∀ id,
    id ∈ dfa.accepting ↔ recorded id ∧ dfa.isFinal id = true
  mem_nonAccepting_iff : ∀ id,
    id ∈ dfa.nonAccepting ↔ recorded id ∧ dfa.isFinal id = false

namespace Classifies

variable {recorded : Nat → Prop}

/-- The classes may be those of another automaton in which the recorded states
have the same flags. -/
theorem transfer {other : Dfa} {also : Nat → Prop}
    (classifies : dfa.Classifies recorded)
    (accepting : other.accepting = dfa.accepting)
    (nonAccepting : other.nonAccepting = dfa.nonAccepting)
    (same : ∀ id, also id ↔ recorded id)
    (isFinal : ∀ id, recorded id → other.isFinal id = dfa.isFinal id) :
    other.Classifies also where
  nodup_accepting := accepting ▸ classifies.nodup_accepting
  nodup_nonAccepting := nonAccepting ▸ classifies.nodup_nonAccepting
  mem_accepting_iff id := by
    rw [accepting, classifies.mem_accepting_iff, same]
    exact and_congr_right fun known => by rw [isFinal id known]
  mem_nonAccepting_iff id := by
    rw [nonAccepting, classifies.mem_nonAccepting_iff, same]
    exact and_congr_right fun known => by rw [isFinal id known]

/-- Recording one more state. -/
theorem classify (classifies : dfa.Classifies recorded) (id : Nat) :
    (dfa.classify id).Classifies fun other =>
      other = id ∨ recorded other := by
  rw [Dfa.classify]
  split
  · next final =>
      split
      · next known =>
          refine classifies.transfer rfl rfl (fun other => ?_) fun _ _ => rfl
          exact or_iff_right_of_imp fun same =>
            same ▸ ((classifies.mem_accepting_iff id).1 known).1
      · next new =>
          refine ⟨?_, classifies.nodup_nonAccepting, ?_, ?_⟩
          · exact List.nodup_append.2 ⟨classifies.nodup_accepting,
              List.pairwise_singleton _ id, by grind⟩
          · intro other
            show other ∈ dfa.accepting ++ [id] ↔ _ ∧ dfa.isFinal other = true
            rw [List.mem_append, List.mem_singleton,
              classifies.mem_accepting_iff]
            grind
          · intro other
            show other ∈ dfa.nonAccepting ↔ _ ∧ dfa.isFinal other = false
            rw [classifies.mem_nonAccepting_iff]
            grind
  · next final =>
      split
      · next known =>
          refine classifies.transfer rfl rfl (fun other => ?_) fun _ _ => rfl
          exact or_iff_right_of_imp fun same =>
            same ▸ ((classifies.mem_nonAccepting_iff id).1 known).1
      · next new =>
          refine ⟨classifies.nodup_accepting, ?_, ?_, ?_⟩
          · exact List.nodup_append.2 ⟨classifies.nodup_nonAccepting,
              List.pairwise_singleton _ id, by grind⟩
          · intro other
            show other ∈ dfa.accepting ↔ _ ∧ dfa.isFinal other = true
            rw [classifies.mem_accepting_iff]
            grind
          · intro other
            show other ∈ dfa.nonAccepting ++ [id] ↔
              _ ∧ dfa.isFinal other = false
            rw [List.mem_append, List.mem_singleton,
              classifies.mem_nonAccepting_iff]
            grind

/-- Recording a list of states. -/
theorem foldl_classify (classifies : dfa.Classifies recorded)
    (ids : List Nat) :
    (ids.foldl Dfa.classify dfa).Classifies fun id =>
      id ∈ ids ∨ recorded id := by
  induction ids generalizing dfa recorded with
  | nil => simpa using classifies
  | cons id ids classified =>
      refine (classified (classifies.classify id)).transfer rfl rfl
        (fun other => ?_) fun _ _ => rfl
      rw [List.mem_cons, or_assoc, or_left_comm]

end Classifies

theorem exists_addCharacter_eq (dfa : Dfa) (character : Char) :
    ∃ alphabet, dfa.addCharacter character = { dfa with alphabet := alphabet } ∧
      ∀ other, other ∈ alphabet ↔ other = character ∨ other ∈ dfa.alphabet := by
  rw [addCharacter]
  split
  · next known =>
      refine ⟨dfa.alphabet, rfl, ?_⟩
      intro other
      constructor
      · exact Or.inr
      · rintro (rfl | member)
        · exact known
        · exact member
  · refine ⟨_, rfl, ?_⟩
    intro other
    rw [List.mem_append, List.mem_singleton, or_comm]

theorem nodup_alphabet_addCharacter (character : Char)
    (nodup : dfa.alphabet.Nodup) :
    (dfa.addCharacter character).alphabet.Nodup := by
  rw [addCharacter]
  split
  · exact nodup
  · next new =>
      exact List.nodup_append.2
        ⟨nodup, List.pairwise_singleton _ character, by grind⟩

end PatternAutomata.Dfa
