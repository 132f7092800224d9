import PatternAutomata.Nfa.Thompson
import PatternAutomata.Proofs.Nfa.Walk

/-!
# Building automata step by step

Each building step is described by what it does to the states that can be
looked up: a new state is bare, an edge is added where its source is a state,
and flags change only when the terminals are marked.  An automaton that comes
about by such steps flags no state as a start other than the designated one.
-/

namespace PatternAutomata

namespace Nfa

variable {nfa : Nfa}

/-! ## Looking up states -/

/-- The number of the next state, where the given one counts for the first
state only. -/
def nextId (nfa : Nfa) (id : StateId) : StateId :=
  if nfa.isEmpty then id else nfa.firstId + nfa.size

theorem state?_eq_none_of_isEmpty (empty : nfa.isEmpty = true)
    (id : StateId) : nfa.state? id = none := by
  rw [isEmpty, Array.isEmpty_iff] at empty
  simp [state?, empty]

theorem state?_nextId (nfa : Nfa) (id : StateId) :
    nfa.state? (nfa.nextId id) = none := by
  cases occupied : nfa.isEmpty with
  | true => exact state?_eq_none_of_isEmpty occupied _
  | false => simp [state?, nextId, occupied, size]

theorem state?_addState (id other : StateId) :
    (nfa.addState id).state? other =
      if other = nfa.nextId id then some .bare else nfa.state? other := by
  cases occupied : nfa.isEmpty with
  | true =>
      rw [state?_eq_none_of_isEmpty occupied, nextId, if_pos occupied]
      rw [isEmpty, Array.isEmpty_iff] at occupied
      simp only [state?, addState, isEmpty, occupied, Array.isEmpty_empty,
        if_true]
      grind
  | false =>
      simp only [state?, addState, nextId, occupied, Bool.false_eq_true,
        if_false, size]
      grind

theorem state?_modify (id other : StateId) (change : State → State) :
    (nfa.modify id change).state? other =
      if other = id then (nfa.state? other).map change
      else nfa.state? other := by
  simp only [modify, state?]
  grind

@[simp]
theorem start_modify (id : StateId) (change : State → State) :
    (nfa.modify id change).start = nfa.start := by
  rw [modify]
  split <;> rfl

@[simp]
theorem final_modify (id : StateId) (change : State → State) :
    (nfa.modify id change).final = nfa.final := by
  rw [modify]
  split <;> rfl

@[simp]
theorem start_markTerminals (nfa : Nfa) :
    nfa.markTerminals.start = nfa.start := by
  simp [markTerminals, clearFlags]

@[simp]
theorem final_markTerminals (nfa : Nfa) :
    nfa.markTerminals.final = nfa.final := by
  simp [markTerminals, clearFlags]

theorem state?_clearFlags (id : StateId) :
    nfa.clearFlags.state? id =
      (nfa.state? id).map (State.flag false false) := by
  simp only [clearFlags, state?]
  grind

/-- Marking flags the designated states and no others. -/
theorem state?_markTerminals (id : StateId) :
    nfa.markTerminals.state? id =
      (nfa.state? id).map
        (State.flag (decide (id = nfa.start)) (decide (id = nfa.final))) := by
  simp only [markTerminals, state?_modify, state?_clearFlags]
  cases nfa.state? id with
  | none => simp
  | some state =>
      by_cases started : id = nfa.start <;>
        by_cases ended : id = nfa.final
      · rw [if_pos ended, if_pos started, decide_eq_true started,
          decide_eq_true ended]
        rfl
      · rw [if_neg ended, if_pos started, decide_eq_true started,
          decide_eq_false ended]
        rfl
      · rw [if_pos ended, if_neg started, decide_eq_false started,
          decide_eq_true ended]
        rfl
      · rw [if_neg ended, if_neg started, decide_eq_false started,
          decide_eq_false ended]

/-! ## Contained states -/

theorem lt_nextId {id : StateId} (contains : nfa.contains id = true)
    (other : StateId) : id < nfa.nextId other := by
  cases occupied : nfa.isEmpty with
  | true =>
      simp [Nfa.contains, state?_eq_none_of_isEmpty occupied] at contains
  | false =>
      rw [nextId, occupied]
      exact (contains_iff.1 contains).2

theorem nextId_addState (id other : StateId) :
    (nfa.addState id).nextId other = nfa.nextId id + 1 := by
  cases occupied : nfa.isEmpty <;>
    simp_all [nextId, addState, isEmpty, size, Nat.add_assoc]

theorem nextId_modify (id other : StateId) (change : State → State) :
    (nfa.modify id change).nextId other = nfa.nextId other := by
  rw [modify]
  split
  · simp only [nextId, isEmpty, size, Array.isEmpty_iff_size_eq_zero,
      Array.size_modify]
  · rfl

theorem nextId_addEdges (edges : List Edge) (id : StateId) :
    (nfa.addEdges edges).nextId id = nfa.nextId id := by
  induction edges with
  | nil => rfl
  | cons edge edges same => exact (nextId_modify _ _ _).trans same

@[simp]
theorem size_addEdges (edges : List Edge) :
    (nfa.addEdges edges).size = nfa.size := by
  rw [addEdges]
  induction edges with
  | nil => rfl
  | cons edge edges kept =>
      rw [List.foldr_cons, addEdge, modify]
      split
      · exact Array.size_modify.trans kept
      · exact kept

theorem contains_addState (id other : StateId) :
    (nfa.addState id).contains other = true ↔
      nfa.contains other = true ∨ other = nfa.nextId id := by
  rw [contains, contains, state?_addState]
  split <;> simp_all

@[simp]
theorem contains_modify (id other : StateId) (change : State → State) :
    (nfa.modify id change).contains other = nfa.contains other := by
  rw [contains, contains, state?_modify]
  split <;> simp

@[simp]
theorem contains_addEdge (edge : Edge) (id : StateId) :
    (nfa.addEdge edge).contains id = nfa.contains id :=
  contains_modify _ _ _

@[simp]
theorem contains_addEdges (edges : List Edge) (id : StateId) :
    (nfa.addEdges edges).contains id = nfa.contains id := by
  induction edges with
  | nil => rfl
  | cons edge edges same =>
      rw [← same]
      exact contains_addEdge edge id

@[simp]
theorem contains_markTerminals (id : StateId) :
    nfa.markTerminals.contains id = nfa.contains id := by
  rw [contains, contains, state?_markTerminals, Option.isSome_map]

/-! ## Edges -/

theorem State.mem_targets_addEdge {state : State} {added label : Label}
    {new target : StateId} :
    target ∈ (state.addEdge added new).targets label ↔
      target ∈ state.targets label ∨ label = added ∧ target = new := by
  by_cases same : label = added
  · subst same
    simp [addEdge, targets, or_comm, eq_comm (a := new)]
  · have differs : ¬ compare added label = .eq := fun equal =>
      same (Std.LawfulEqOrd.eq_of_compare equal).symm
    simp [addEdge, targets, Std.ExtTreeMap.getElem?_insert, differs, same]

@[simp]
theorem targets_addState (id source : StateId) (label : Label) :
    (nfa.addState id).targets source label = nfa.targets source label := by
  rw [targets, targets, state?_addState]
  split
  · next new =>
      rw [new, state?_nextId]
      rfl
  · rfl

theorem mem_targets_addEdge {edge : Edge} {source target : StateId}
    {label : Label} :
    target ∈ (nfa.addEdge edge).targets source label ↔
      target ∈ nfa.targets source label ∨
        edge = ⟨source, label, target⟩ ∧ nfa.contains source = true := by
  rw [mem_targets_iff, mem_targets_iff, addEdge, state?_modify, contains]
  rcases edge with ⟨edgeSource, edgeLabel, edgeTarget⟩
  by_cases same : source = edgeSource
  · cases nfa.state? source <;>
      simp [same, State.mem_targets_addEdge, eq_comm]
  · simp [same, Ne.symm same]

theorem mem_targets_addEdges {edges : List Edge} {source target : StateId}
    {label : Label} :
    target ∈ (nfa.addEdges edges).targets source label ↔
      target ∈ nfa.targets source label ∨
        ⟨source, label, target⟩ ∈ edges ∧ nfa.contains source = true := by
  induction edges with
  | nil => simp [addEdges]
  | cons edge edges added =>
      change target ∈ ((nfa.addEdges edges).addEdge edge).targets _ _ ↔ _
      rw [mem_targets_addEdge, added, contains_addEdges, List.mem_cons,
        eq_comm (a := edge)]
      tauto

@[simp]
theorem targets_markTerminals (source : StateId) (label : Label) :
    nfa.markTerminals.targets source label = nfa.targets source label := by
  rw [targets, targets, state?_markTerminals, Option.map_map]
  rfl

/-! ## Flags -/

theorem isFinal_markTerminals {id : StateId} :
    nfa.markTerminals.isFinal id = true ↔
      id = nfa.final ∧ nfa.contains id = true := by
  rw [isFinal, state?_markTerminals, contains]
  cases nfa.state? id <;> simp [State.flag]

theorem isStart_markTerminals {id : StateId} :
    nfa.markTerminals.isStart id = true ↔
      id = nfa.start ∧ nfa.contains id = true := by
  rw [isStart, state?_markTerminals, contains]
  cases nfa.state? id <;> simp [State.flag]

@[simp]
theorem isStart_addState (id other : StateId) :
    (nfa.addState id).isStart other = nfa.isStart other := by
  rw [isStart, isStart, state?_addState]
  split
  · next new =>
      rw [new, state?_nextId]
      rfl
  · rfl

@[simp]
theorem isStart_addEdge (edge : Edge) (id : StateId) :
    (nfa.addEdge edge).isStart id = nfa.isStart id := by
  rw [isStart, isStart, addEdge, state?_modify]
  split
  · rw [Option.any_map]
    rfl
  · rfl

end Nfa

/-! ## Counting states -/

/-- A fragment takes two states. -/
theorem Assembly.size_compose (edges : Fragment → List Edge)
    (assembly : Assembly) :
    (assembly.compose edges).2.nfa.size = assembly.nfa.size + 2 := by
  change (Nfa.addEdges _ _).size = _
  rw [Nfa.size_addEdges, Nfa.size]
  change ((assembly.nfa.states.push _).push _).size = _
  rw [Array.size_push, Array.size_push]
  rfl

/-- The fragment of an expression has as many states as are counted. -/
theorem Regex.size_assemble (regex : Regex) (assembly : Assembly) :
    (regex.assemble assembly).2.nfa.size =
      assembly.nfa.size + regex.stateCount := by
  induction regex generalizing assembly with
  | literal character => exact assembly.size_compose _
  | oneOf members => exact assembly.size_compose _
  | concatenation left right leftTakes rightTakes =>
      change (Nfa.addEdges _ _).size = _
      rw [Nfa.size_addEdges, rightTakes, leftTakes, stateCount, Nat.add_assoc]
  | alternation left right leftTakes rightTakes =>
      change (Assembly.compose _ _).2.nfa.size = _
      rw [Assembly.size_compose, rightTakes, leftTakes, stateCount,
        Nat.add_assoc, Nat.add_assoc, Nat.add_assoc]
  | repeated repetition body bodyTakes =>
      change (Assembly.compose _ _).2.nfa.size = _
      rw [Assembly.size_compose, bodyTakes, stateCount, Nat.add_assoc]

/-! ## Automata that can come about -/

/-- What adding states and edges keeps is kept while the fragment of an
expression is put together. -/
theorem Regex.assemble_induction {motive : Nfa → Prop}
    (addState : ∀ nfa id, motive nfa → motive (nfa.addState id))
    (addEdge : ∀ nfa edge, motive nfa → motive (nfa.addEdge edge))
    (regex : Regex) {assembly : Assembly} (start : motive assembly.nfa) :
    motive (regex.assemble assembly).2.nfa := by
  have addEdges {nfa : Nfa} (edges : List Edge) (holds : motive nfa) :
      motive (nfa.addEdges edges) := by
    induction edges with
    | nil => exact holds
    | cons edge edges grown => exact addEdge _ edge grown
  have compose {assembly : Assembly} (edges : Fragment → List Edge)
      (holds : motive assembly.nfa) : motive (assembly.compose edges).2.nfa :=
    addEdges _ (addState _ _ (addState _ _ holds))
  induction regex generalizing assembly with
  | literal character => exact compose _ start
  | oneOf members => exact compose _ start
  | concatenation left right leftKept rightKept =>
      exact addEdges _ (rightKept (leftKept start))
  | alternation left right leftKept rightKept =>
      exact compose _ (rightKept (leftKept start))
  | repeated repetition body bodyKept => exact compose _ (bodyKept start)

/-- Putting the fragment of an expression together flags nothing. -/
theorem Regex.isStart_assemble (regex : Regex) (assembly : Assembly)
    (id : StateId) :
    (regex.assemble assembly).2.nfa.isStart id = assembly.nfa.isStart id := by
  apply regex.assemble_induction
    (motive := fun nfa => nfa.isStart id = assembly.nfa.isStart id) _ _ rfl
  · intro nfa added same
    rw [Nfa.isStart_addState, same]
  · intro nfa edge same
    rw [Nfa.isStart_addEdge, same]

/-- Automata that come about from the empty one, or from a pattern, by adding
states and edges and marking the terminals. -/
inductive Nfa.Built : Nfa → Prop
  | empty : Built Nfa.empty
  | parsed {pattern : List Char} {supply : IdSupply} {nfa : Nfa} :
      (ofPattern pattern supply).1 = .ok nfa → Built nfa
  | addState {nfa : Nfa} (id : StateId) : Built nfa → Built (nfa.addState id)
  | addEdge {nfa : Nfa} (edge : Edge) : Built nfa → Built (nfa.addEdge edge)
  | markTerminals {nfa : Nfa} : Built nfa → Built nfa.markTerminals

theorem Nfa.Built.addEdges {nfa : Nfa} (built : nfa.Built)
    (edges : List Edge) : (nfa.addEdges edges).Built := by
  induction edges with
  | nil => exact built
  | cons edge edges grown => exact .addEdge edge grown

theorem Nfa.exists_regex_of_ofPattern {pattern : List Char}
    {supply : IdSupply} {nfa : Nfa}
    (parsed : (ofPattern pattern supply).1 = .ok nfa) :
    ∃ regex, Parser.parse pattern = .ok regex ∧
      nfa = (ofRegex regex supply).1 := by
  rw [ofPattern] at parsed
  cases found : Parser.parse pattern with
  | ok regex =>
      rw [found] at parsed
      exact ⟨regex, rfl, (Except.ok.inj parsed).symm⟩
  | error failure =>
      rw [found] at parsed
      exact nomatch parsed

/-- Only the designated start state is ever flagged as a start. -/
theorem Nfa.Built.eq_start_of_isStart {nfa : Nfa} (built : nfa.Built)
    {id : StateId} (isStart : nfa.isStart id = true) : id = nfa.start := by
  induction built with
  | empty => simp [Nfa.isStart, state?, Nfa.empty] at isStart
  | @parsed pattern supply nfa parsed =>
      rcases exists_regex_of_ofPattern parsed with ⟨regex, -, rfl⟩
      change (regex.assemble (Assembly.start supply)).2.nfa.isStart id = true
        at isStart
      rw [Regex.isStart_assemble] at isStart
      simp [Assembly.start, Nfa.isStart, state?, Nfa.empty] at isStart
  | addState added _ same =>
      rw [isStart_addState] at isStart
      exact same isStart
  | addEdge edge _ same =>
      rw [isStart_addEdge] at isStart
      exact (same isStart).trans (start_modify _ _).symm
  | markTerminals _ _ =>
      rw [start_markTerminals]
      exact (isStart_markTerminals.1 isStart).1

/-! ## Labels have targets -/

/-- Every label in the table of a state has a target. -/
def Nfa.HasTargets (nfa : Nfa) : Prop :=
  ∀ (id : StateId) (state : State), nfa.state? id = some state →
    ∀ (label : Label) (targets : StateSet),
      state.edges[label]? = some targets → targets ≠ ∅

namespace Nfa.HasTargets

variable {nfa : Nfa}

theorem addState (labelled : nfa.HasTargets) (id : StateId) :
    (nfa.addState id).HasTargets := by
  intro other state found
  rw [state?_addState] at found
  split at found
  · cases found
    intro label targets entry
    simp [State.bare] at entry
  · exact labelled other state found

theorem addEdge (labelled : nfa.HasTargets) (edge : Edge) :
    (nfa.addEdge edge).HasTargets := by
  intro id state found
  rw [Nfa.addEdge, state?_modify] at found
  split at found
  · rcases Option.map_eq_some_iff.1 found with ⟨old, oldFound, rfl⟩
    intro label targets entry
    rw [State.addEdge, Std.ExtTreeMap.getElem?_insert] at entry
    split at entry
    · cases entry
      exact Std.ExtTreeSet.insert_ne_empty
    · exact labelled id old oldFound label targets entry
  · exact labelled id state found

theorem markTerminals (labelled : nfa.HasTargets) :
    nfa.markTerminals.HasTargets := by
  intro id state found
  rw [state?_markTerminals] at found
  rcases Option.map_eq_some_iff.1 found with ⟨old, oldFound, rfl⟩
  exact labelled id old oldFound

/-- A character on an edge leads somewhere. -/
theorem exists_mem_targets (labelled : nfa.HasTargets) {id : StateId}
    {character : Char} (member : character ∈ nfa.characters id) :
    ∃ target, target ∈ nfa.targets id (.char character) := by
  cases found : nfa.state? id with
  | none => simp [characters, found] at member
  | some state =>
      rw [characters, found] at member
      rcases List.mem_filterMap.1 member with ⟨label, known, reads⟩
      cases label with
      | epsilon => exact nomatch reads
      | char read =>
          cases reads
          rw [Std.ExtTreeMap.mem_keys, Std.ExtTreeMap.mem_iff_isSome_getElem?]
            at known
          rcases Option.isSome_iff_exists.1 known with ⟨targets, entry⟩
          rcases StateSet.exists_mem (labelled id state found _ _ entry) with
            ⟨target, inside⟩
          refine ⟨target, mem_targets_iff.2 ⟨state, found, ?_⟩⟩
          rw [State.targets, entry]
          exact inside

end Nfa.HasTargets

theorem Nfa.Built.hasTargets {nfa : Nfa} (built : nfa.Built) :
    nfa.HasTargets := by
  have empty : Nfa.empty.HasTargets := by
    intro id state found
    simp [state?, Nfa.empty] at found
  induction built with
  | empty => exact empty
  | @parsed pattern supply nfa parsed =>
      rcases exists_regex_of_ofPattern parsed with ⟨regex, -, rfl⟩
      have start : (Assembly.start supply).nfa.HasTargets := empty
      exact regex.assemble_induction
        (fun _ id labelled => labelled.addState id)
        (fun _ edge labelled => labelled.addEdge edge) start
  | addState id _ labelled => exact labelled.addState id
  | addEdge edge _ labelled => exact labelled.addEdge edge
  | markTerminals _ labelled => exact labelled.markTerminals

end PatternAutomata
