import PatternAutomata.Proofs.Nfa.Walk
import PatternAutomata.Proofs.Shift.StateSet

/-!
# Moving the numbers of an automaton

Moving the numbers of an automaton up by an amount moves everything that is
found by walking over it: the states that a walk visits, closures, steps of a
simulation.  The characters met on the way stay, in the same order.
-/

namespace PatternAutomata

variable {amount : Nat}

/-- The edge with both its ends moved up. -/
def Edge.shift (amount : Nat) (edge : Edge) : Edge :=
  ⟨edge.source + amount, edge.label, edge.target + amount⟩

namespace Nfa

/-- The state with the targets of its edges moved up. -/
def State.shift (amount : Nat) (state : State) : State :=
  { state with edges := state.edges.map fun _ => StateSet.shift amount }

/-- The automaton with all its numbers moved up. -/
def shift (amount : Nat) (nfa : Nfa) : Nfa :=
  ⟨nfa.firstId + amount, nfa.states.map (State.shift amount),
    nfa.start + amount, nfa.final + amount⟩

/-! ## States -/

namespace State

@[simp]
theorem shift_bare (amount : Nat) : bare.shift amount = bare :=
  congrArg (State.mk false false) (map_empty _)

theorem targets_shift (amount : Nat) (state : State) (label : Label) :
    (state.shift amount).targets label =
      (state.targets label).shift amount := by
  rw [targets, targets, State.shift, Std.ExtTreeMap.getElem?_map]
  cases state.edges[label]? with
  | none => exact (StateSet.shift_empty amount).symm
  | some targets => rfl

theorem successors_shift (amount : Nat) (state : State) :
    (state.shift amount).successors =
      state.successors.map (· + amount) := by
  rw [successors, successors, State.shift, Std.ExtTreeMap.toList_map,
    List.flatMap_map, List.map_flatMap]
  simp only [StateSet.toList_shift]

@[simp]
theorem characters_shift (amount : Nat) (state : State) :
    (state.shift amount).characters = state.characters := by
  rw [characters, characters, State.shift, Std.ExtTreeMap.keys_map]

/-- Adding an edge and moving go together. -/
theorem shift_addEdge (amount : Nat) (label : Label) (target : StateId)
    (state : State) :
    (state.addEdge label target).shift amount =
      (state.shift amount).addEdge label (target + amount) := by
  rw [addEdge, addEdge, targets_shift, ← StateSet.shift_insert]
  simp only [State.shift, map_insert]

end State

section

variable (amount : Nat) (nfa : Nfa)

@[simp]
theorem size_shift : (nfa.shift amount).size = nfa.size :=
  Array.size_map

@[simp]
theorem isEmpty_shift : (nfa.shift amount).isEmpty = nfa.isEmpty := by
  rw [Bool.eq_iff_iff, isEmpty, isEmpty, Array.isEmpty_iff_size_eq_zero,
    Array.isEmpty_iff_size_eq_zero, shift, Array.size_map]

theorem state?_shift (id : StateId) :
    (nfa.shift amount).state? (id + amount) =
      (nfa.state? id).map (State.shift amount) := by
  rw [state?, state?, shift]
  simp only [Nat.add_le_add_iff_right, Nat.add_sub_add_right,
    Array.getElem?_map]
  split
  · rfl
  · rfl

@[simp]
theorem isStart_shift (id : StateId) :
    (nfa.shift amount).isStart (id + amount) = nfa.isStart id := by
  rw [isStart, isStart, state?_shift, Option.any_map]
  rfl

@[simp]
theorem isFinal_shift (id : StateId) :
    (nfa.shift amount).isFinal (id + amount) = nfa.isFinal id := by
  rw [isFinal, isFinal, state?_shift, Option.any_map]
  rfl

@[simp]
theorem characters_shift (id : StateId) :
    (nfa.shift amount).characters (id + amount) = nfa.characters id := by
  rw [characters, characters, state?_shift, Option.map_map]
  congr 2
  funext state
  exact state.characters_shift amount

theorem targets_shift (id : StateId) (label : Label) :
    (nfa.shift amount).targets (id + amount) label =
      (nfa.targets id label).shift amount := by
  rw [targets, targets, state?_shift, Option.map_map]
  cases nfa.state? id with
  | none => exact (StateSet.shift_empty amount).symm
  | some state => exact state.targets_shift amount label

theorem shift_modify (id : StateId) (change changeShifted : State → State)
    (same : ∀ state : State,
      (change state).shift amount = changeShifted (state.shift amount)) :
    (nfa.modify id change).shift amount =
      (nfa.shift amount).modify (id + amount) changeShifted := by
  rw [modify, modify]
  simp only [shift, Nat.add_le_add_iff_right, Nat.add_sub_add_right]
  split
  · rw [map_modify _ _ same]
  · rfl

/-- Marking the terminals and moving go together. -/
theorem shift_markTerminals :
    nfa.markTerminals.shift amount = (nfa.shift amount).markTerminals := by
  have cleared :
      nfa.clearFlags.shift amount = (nfa.shift amount).clearFlags := by
    rw [clearFlags, clearFlags, shift, shift, Array.map_map, Array.map_map]
    rfl
  let startFlag := fun state : State => { state with isStart := true }
  let finalFlag := fun state : State => { state with isFinal := true }
  rw [markTerminals, markTerminals,
    shift_modify amount _ _ finalFlag finalFlag fun _ => rfl,
    shift_modify amount _ _ startFlag startFlag fun _ => rfl, cleared]
  rfl

end

/-! ## Walks -/

/-- Dropping repetitions and moving go together. -/
theorem eraseDups_map_add (amount : Nat) :
    (ids : List StateId) →
      (ids.map (· + amount)).eraseDups = ids.eraseDups.map (· + amount)
  | [] => rfl
  | head :: tail => by
      have others : (tail.map (· + amount)).filter
            (fun id => !id == head + amount) =
          (tail.filter fun id => !id == head).map (· + amount) := by
        rw [List.filter_map]
        congr 2
        funext id
        simp
      rw [List.map_cons, List.eraseDups_cons, List.eraseDups_cons,
        List.map_cons, others, eraseDups_map_add]
termination_by ids => ids.length
decreasing_by exact Nat.lt_succ_of_le (List.length_filter_le _ _)

theorem newAmong_shift (amount : Nat) (seen : StateSet)
    (candidates : List StateId) :
    newAmong (seen.shift amount) (candidates.map (· + amount)) =
      (newAmong seen candidates).map (· + amount) := by
  rw [newAmong, newAmong, ← eraseDups_map_add, List.filter_map]
  congr 3
  funext id
  simp

theorem Discipline.arrange_map_add (amount : Nat) (discipline : Discipline)
    (found waiting : List StateId) :
    discipline.arrange (found.map (· + amount)) (waiting.map (· + amount)) =
      (discipline.arrange found waiting).map (· + amount) := by
  cases discipline <;> simp [arrange]

section

variable (nfa : Nfa) (discipline : Discipline) {next : State → List StateId}
  (moved : ∀ state : State,
    next (state.shift amount) = (next state).map (· + amount))

include moved

/-- A walk over the moved automaton visits the moved numbers. -/
theorem walkFrom_shift (rounds : Nat) (seen : StateSet)
    (waiting : List StateId) :
    (nfa.shift amount).walkFrom discipline next rounds (seen.shift amount)
        (waiting.map (· + amount)) =
      (nfa.walkFrom discipline next rounds seen waiting).map
        (· + amount) := by
  induction rounds generalizing seen waiting with
  | zero => rfl
  | succ rounds walks =>
      cases waiting with
      | nil => rfl
      | cons id waiting =>
          rw [List.map_cons, walkFrom, walkFrom, state?_shift]
          cases nfa.state? id with
          | none => rfl
          | some state =>
              simp only [Option.map_some, List.map_cons]
              rw [moved, newAmong_shift, discipline.arrange_map_add,
                ← StateSet.shift_insertMany, walks]

theorem walk_shift (starts : List StateId) :
    (nfa.shift amount).walk discipline next (starts.map (· + amount)) =
      (nfa.walk discipline next starts).map (· + amount) := by
  rw [walk, walk, size_shift, ← StateSet.shift_ofList, eraseDups_map_add,
    ← walkFrom_shift nfa discipline moved]
  exact congrArg _ (discipline.arrange_map_add amount _ [])

end

section

variable (amount : Nat) (nfa : Nfa)

theorem breadthFirst_shift :
    (nfa.shift amount).breadthFirst =
      nfa.breadthFirst.map (· + amount) := by
  rw [breadthFirst, breadthFirst, isEmpty_shift]
  split
  · rfl
  · exact nfa.walk_shift .queue (State.successors_shift amount) [nfa.start]

theorem closure_shift (starts : List StateId) :
    (nfa.shift amount).closure (starts.map (· + amount)) =
      (nfa.closure starts).shift amount := by
  rw [closure, closure, StateSet.shift_ofList, emptyWalk, emptyWalk,
    walk_shift]
  intro state
  rw [State.targets_shift, StateSet.toList_shift]

theorem edge_shift (sources : StateSet) (character : Char) :
    (nfa.shift amount).edge (sources.shift amount) character =
      (nfa.edge sources character).shift amount := by
  rw [edge, edge, StateSet.shift_ofList, StateSet.toList_shift,
    List.flatMap_map, List.map_flatMap]
  simp only [targets_shift, StateSet.toList_shift]

theorem advance_shift (current : StateSet) (character : Char) :
    (nfa.shift amount).advance (current.shift amount) character =
      (nfa.advance current character).shift amount := by
  rw [advance, advance, edge_shift, StateSet.toList_shift, closure_shift]

/-- The characters are met in the same order. -/
@[simp]
theorem alphabet_shift : (nfa.shift amount).alphabet = nfa.alphabet := by
  rw [alphabet, alphabet, breadthFirst_shift, List.foldl_map]
  simp only [characters_shift]

end

end Nfa

end PatternAutomata
