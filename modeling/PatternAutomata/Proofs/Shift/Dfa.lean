import PatternAutomata.Proofs.Dfa.Exploration
import PatternAutomata.Proofs.Shift.Nfa

/-!
# Deterministic automata with moved members

Moving the numbers of a nondeterministic automaton up moves the members of the
states in its automaton of subsets.  Nothing else changes there: sets of
members keep their order, so the subsets are explored in the same order and
get the same numbers.
-/

namespace PatternAutomata.Dfa

variable {amount : Nat} {dfa other : Dfa}

/-- The state with its members moved up. -/
def State.shift (amount : Nat) (state : State) : State :=
  { state with members := state.members.shift amount }

/-- The automaton is another one with the members of its states moved up. -/
structure IsShift (amount : Nat) (dfa other : Dfa) : Prop where
  /-- The states have the same numbers, flags and marks. -/
  states : other.states = dfa.states.map (State.shift amount)
  /-- The states are found by the moved members. -/
  index : IsImage (StateSet.shift amount) id dfa.index other.index
  /-- The start state has the same number. -/
  start : other.start = dfa.start
  /-- The transitions by number are the same. -/
  transitions : other.transitions = dfa.transitions
  /-- The transitions by members lead from and to the moved members. -/
  structural : IsImage (StateSet.shift amount)
    (fun row => row.map fun _ => StateSet.shift amount)
    dfa.structural other.structural
  /-- The accepting states are listed in the same order. -/
  accepting : other.accepting = dfa.accepting
  /-- The other states are listed in the same order. -/
  nonAccepting : other.nonAccepting = dfa.nonAccepting
  /-- The alphabet is listed in the same order. -/
  alphabet : other.alphabet = dfa.alphabet

theorem isShift_empty (amount : Nat) (alphabet : List Char) :
    (empty alphabet).IsShift amount (empty alphabet) where
  states := Array.map_empty.symm
  index := .empty
  start := rfl
  transitions := rfl
  structural := .empty
  accepting := rfl
  nonAccepting := rfl
  alphabet := rfl

namespace IsShift

variable (isShift : dfa.IsShift amount other)

include isShift

/-! ## Look-ups -/

theorem size_eq : other.size = dfa.size := by
  rw [size, isShift.states, Array.size_map]
  rfl

theorem getElem?_states (id : Nat) :
    other.states[id]? = (dfa.states[id]?).map (State.shift amount) := by
  rw [isShift.states, Array.getElem?_map]

theorem members_eq (id : Nat) :
    other.members id = (dfa.members id).shift amount := by
  rw [members, members, isShift.getElem?_states]
  cases dfa.states[id]? with
  | none => exact (StateSet.shift_empty amount).symm
  | some state => rfl

theorem isStart_eq : other.isStart = dfa.isStart := by
  funext id
  rw [isStart, isShift.getElem?_states, Option.any_map]
  rfl

theorem isFinal_eq : other.isFinal = dfa.isFinal := by
  funext id
  rw [isFinal, isShift.getElem?_states, Option.any_map]
  rfl

theorem isMarked_eq : other.isMarked = dfa.isMarked := by
  funext id
  rw [isMarked, isShift.getElem?_states, Option.any_map]
  rfl

theorem idOf?_eq (members : StateSet) :
    other.idOf? (members.shift amount) = dfa.idOf? members := by
  rw [idOf?, isShift.index.getElem? (StateSet.shift_injective amount),
    Option.map_id]
  rfl

theorem target?_eq : other.target? = dfa.target? := by
  unfold target?
  rw [isShift.transitions]

/-! ## Building steps -/

/-- A change of one state that leaves members alone. -/
theorem modify (id : Nat) (change : State → State)
    (same : ∀ state : State,
      (change state).shift amount = change (state.shift amount)) :
    IsShift amount { dfa with states := dfa.states.modify id change }
      { other with states := other.states.modify id change } := by
  refine { isShift with states := ?_ }
  rw [isShift.states]
  exact (map_modify dfa.states id same).symm

/-- Adding the moved members adds or finds the same state. -/
theorem addState (members : StateSet) (isStart isFinal : Bool) :
    (other.addState (members.shift amount) isStart isFinal).1 =
        (dfa.addState members isStart isFinal).1 ∧
      (dfa.addState members isStart isFinal).2.IsShift amount
        (other.addState (members.shift amount) isStart isFinal).2 := by
  have same := isShift.idOf?_eq members
  cases known : dfa.idOf? members with
  | some id =>
      rw [addState_of_known known, addState_of_known (same.trans known)]
      let raise := fun state : State =>
        { state with
          isStart := state.isStart || isStart
          isFinal := state.isFinal || isFinal }
      exact ⟨rfl, isShift.modify id raise fun _ => rfl⟩
  | none =>
      rw [addState_of_unknown known, addState_of_unknown (same.trans known),
        isShift.size_eq]
      refine ⟨rfl, { isShift with states := ?_, index := ?_ }⟩
      · rw [isShift.states, Array.map_push]
        rfl
      · exact isShift.index.insert (StateSet.shift_injective amount) members _

theorem addTransition (source : Nat) (character : Char) (target : Nat) :
    (dfa.addTransition source character target).IsShift amount
      (other.addTransition source character target) := by
  refine { isShift with transitions := ?_, structural := ?_ }
  · rw [Dfa.addTransition, isShift.transitions]
    rfl
  · rw [Dfa.addTransition, Dfa.addTransition, isShift.members_eq,
      isShift.members_eq]
    apply isShift.structural.alter (StateSet.shift_injective amount)
    intro row?
    cases row? with
    | none =>
        apply congrArg some
        have single := map_insert ∅ character (dfa.members target)
          (StateSet.shift amount)
        rw [map_empty] at single
        exact single.symm
    | some row => exact congrArg some (map_insert row character _ _).symm

theorem mark (id : Nat) : (dfa.mark id).IsShift amount (other.mark id) :=
  isShift.modify id (fun state => { state with isMarked := true }) fun _ => rfl

theorem classify (id : Nat) :
    (dfa.classify id).IsShift amount (other.classify id) := by
  rw [Dfa.classify, Dfa.classify, isShift.isFinal_eq, isShift.accepting,
    isShift.nonAccepting]
  split
  · split
    · exact isShift
    · exact { isShift with accepting := rfl, nonAccepting := rfl }
  · split
    · exact isShift
    · exact { isShift with accepting := rfl, nonAccepting := rfl }

theorem addCharacter (character : Char) :
    (dfa.addCharacter character).IsShift amount
      (other.addCharacter character) := by
  rw [Dfa.addCharacter, Dfa.addCharacter, isShift.alphabet]
  split
  · exact isShift
  · exact { isShift with alphabet := rfl }

end IsShift

/-! ## Exploring subsets -/

section Explore

variable (nfa : Nfa)

/-- Adding a moved subset adds or finds the same state. -/
theorem IsShift.addSubset (isShift : dfa.IsShift amount other)
    (members : StateSet) :
    (other.addSubset (nfa.shift amount) (members.shift amount)).1 =
        (dfa.addSubset nfa members).1 ∧
      (dfa.addSubset nfa members).2.IsShift amount
        (other.addSubset (nfa.shift amount) (members.shift amount)).2 := by
  have flags (flag shifted : StateId → Bool)
      (same : ∀ id, shifted (id + amount) = flag id) :
      (members.shift amount).toList.any shifted =
        members.toList.any flag := by
    rw [StateSet.toList_shift, List.any_map]
    congr 1
    funext id
    exact same id
  rw [Dfa.addSubset, Dfa.addSubset, flags nfa.isStart _
    (nfa.isStart_shift amount), flags nfa.isFinal _ (nfa.isFinal_shift amount)]
  exact isShift.addState members _ _

namespace Exploration

/-- The explorations are equally far, with the members of states moved up. -/
structure IsShift (amount : Nat) (exploration other : Exploration) :
    Prop where
  dfa : exploration.dfa.IsShift amount other.dfa
  waiting : other.waiting = exploration.waiting

theorem isShift_start (amount : Nat) :
    (start nfa).IsShift amount (start (nfa.shift amount)) := by
  have members : (nfa.shift amount).closure [(nfa.shift amount).start] =
      (nfa.closure [nfa.start]).shift amount :=
    nfa.closure_shift amount [nfa.start]
  have silent := isShift_empty amount nfa.alphabet
  rcases silent.addSubset nfa (nfa.closure [nfa.start]) with ⟨same, added⟩
  simp only [start, members, Nfa.alphabet_shift, same]
  exact ⟨{ added with start := rfl }, rfl⟩

variable {exploration other : Exploration}

namespace IsShift

variable (isShift : exploration.IsShift amount other)

include isShift

theorem addTarget (source : Nat) (character : Char) :
    (exploration.addTarget nfa source character).IsShift amount
      (other.addTarget (nfa.shift amount) source character) := by
  simp only [Exploration.addTarget, isShift.dfa.members_eq,
    Nfa.advance_shift, StateSet.isEmpty_shift]
  split
  · exact isShift
  · rcases isShift.dfa.addSubset nfa
      (nfa.advance (exploration.dfa.members source) character) with
      ⟨same, grown⟩
    have connected := grown.addTransition source character
      (exploration.dfa.addSubset nfa
        (nfa.advance (exploration.dfa.members source) character)).1
    simp only [same, isShift.waiting, connected.isMarked_eq]
    exact ⟨connected, rfl⟩

theorem expand (id : Nat) :
    (exploration.expand nfa id).IsShift amount
      (other.expand (nfa.shift amount) id) := by
  have prepared := (isShift.dfa.mark id).classify id
  rw [Exploration.expand, Exploration.expand]
  simp only [prepared.alphabet, isShift.waiting]
  apply List.foldl_rel
  · exact ⟨prepared, rfl⟩
  · intro character _ exploration other step
    exact step.addTarget nfa id character

theorem step :
    (exploration.step nfa).IsShift amount
      (other.step (nfa.shift amount)) := by
  rw [Exploration.step, Exploration.step, isShift.waiting]
  cases exploration.waiting with
  | nil => exact isShift
  | cons id waiting =>
      have rest : IsShift amount ⟨exploration.dfa, waiting⟩
          ⟨other.dfa, waiting⟩ := ⟨isShift.dfa, rfl⟩
      simp only [isShift.dfa.isMarked_eq]
      split
      · exact rest
      · exact rest.expand nfa id

/-- The explorations stay equally far. -/
theorem run (rounds : Nat) :
    (run nfa rounds exploration).IsShift amount
      (run (nfa.shift amount) rounds other) := by
  induction rounds generalizing exploration other with
  | zero => exact isShift
  | succ rounds runs =>
      rw [Exploration.run, Exploration.run, isShift.waiting]
      split
      · exact isShift
      · exact runs (isShift.step nfa)

end IsShift

end Exploration

/-- The automaton of subsets of a moved automaton has moved members. -/
theorem isShift_ofNfa (amount : Nat) :
    (ofNfa nfa).IsShift amount (ofNfa (nfa.shift amount)) := by
  have rounds : Exploration.rounds (nfa.shift amount) =
      Exploration.rounds nfa := by
    rw [Exploration.rounds, Exploration.rounds, Nfa.size_shift,
      Nfa.alphabet_shift]
  rw [ofNfa, ofNfa, Nfa.isEmpty_shift, Nfa.alphabet_shift, rounds]
  split
  · exact isShift_empty amount nfa.alphabet
  · exact ((Exploration.isShift_start nfa amount).run nfa _).dfa

end Explore

end PatternAutomata.Dfa
