import PatternAutomata.Proofs.Nfa.Simulation
import PatternAutomata.Proofs.Nfa.Thompson
import PatternAutomata.Proofs.Shift.Nfa

/-!
# Patterns read with numbers left out

What a pattern gives depends on the supply of numbers in one way only: all
numbers are moved up by the first one that the supply has.  The supply advances
by the same count, which for an accepted pattern is the number of states.
-/

namespace PatternAutomata

variable {amount : Nat}

namespace Nfa

theorem addEdge_of_isEmpty {nfa : Nfa} (empty : nfa.isEmpty = true)
    (edge : Edge) : nfa.addEdge edge = nfa := by
  rw [isEmpty, Array.isEmpty_iff] at empty
  rw [addEdge, modify]
  split
  · have kept (place : Nat) (change : State → State) :
        nfa.states.modify place change = nfa.states := by
      rw [empty]
      exact Array.eq_empty_of_size_eq_zero Array.size_modify
    rw [kept]
  · rfl

/-- The states of the automaton are those of another one, moved up.  Without
states there is no first number to be moved. -/
structure IsMoved (amount : Nat) (nfa moved : Nfa) : Prop where
  states : moved.states = nfa.states.map (State.shift amount)
  firstId : nfa.isEmpty = false → moved.firstId = nfa.firstId + amount

namespace IsMoved

variable {nfa moved : Nfa}

theorem isEmpty_eq (isMoved : nfa.IsMoved amount moved) :
    moved.isEmpty = nfa.isEmpty := by
  rw [← isEmpty_shift amount nfa, isEmpty, isMoved.states]
  rfl

theorem addState (isMoved : nfa.IsMoved amount moved) (id : StateId) :
    (nfa.addState id).IsMoved amount (moved.addState (id + amount)) where
  states := by
    rw [Nfa.addState, Nfa.addState, isMoved.states, Array.map_push,
      State.shift_bare]
  firstId _ := by
    rw [Nfa.addState, Nfa.addState, isMoved.isEmpty_eq]
    cases occupied : nfa.isEmpty with
    | true => rfl
    | false => exact isMoved.firstId occupied

theorem addEdge (isMoved : nfa.IsMoved amount moved) (edge : Edge) :
    (nfa.addEdge edge).IsMoved amount (moved.addEdge (edge.shift amount)) := by
  cases occupied : nfa.isEmpty with
  | true =>
      rw [addEdge_of_isEmpty occupied,
        addEdge_of_isEmpty (isMoved.isEmpty_eq.trans occupied)]
      exact isMoved
  | false =>
      have first := isMoved.firstId occupied
      rw [Nfa.addEdge, Nfa.addEdge, modify, modify, first, Edge.shift]
      simp only [Nat.add_le_add_iff_right, Nat.add_sub_add_right]
      split
      · constructor
        · rw [isMoved.states, map_modify _ _
            (State.shift_addEdge amount edge.label edge.target)]
        · exact fun _ => rfl
      · exact isMoved

theorem addEdges (isMoved : nfa.IsMoved amount moved) (edges : List Edge) :
    (nfa.addEdges edges).IsMoved amount
      (moved.addEdges (edges.map (Edge.shift amount))) := by
  rw [Nfa.addEdges, Nfa.addEdges]
  induction edges with
  | nil => exact isMoved
  | cons edge edges added => exact added.addEdge edge

end IsMoved

end Nfa

/-! ## Fragments -/

namespace Fragment

/-- The fragment with both its ends moved up. -/
def shift (amount : Nat) (fragment : Fragment) : Fragment :=
  ⟨fragment.start + amount, fragment.final + amount⟩

theorem repetitionEdges_shift (amount : Nat) (body whole : Fragment)
    (repetition : Repetition) :
    repetitionEdges (body.shift amount) (whole.shift amount) repetition =
      (repetitionEdges body whole repetition).map (Edge.shift amount) := by
  cases repetition <;> rfl

theorem characterEdges_shift (amount : Nat) (members : CharacterClass)
    (whole : Fragment) :
    characterEdges members (whole.shift amount) =
      (characterEdges members whole).map (Edge.shift amount) := by
  rw [characterEdges, characterEdges, List.map_map]
  rfl

end Fragment

namespace Assembly

variable {assembly moved : Assembly}

/-- The assembly is another one with its numbers moved up. -/
structure IsMoved (amount : Nat) (assembly moved : Assembly) : Prop where
  nfa : assembly.nfa.IsMoved amount moved.nfa
  next : moved.supply.next = assembly.supply.next + amount

theorem isMoved_start (amount : Nat) (supply : IdSupply) :
    (start supply).IsMoved amount (start ⟨supply.next + amount⟩) where
  nfa := ⟨Array.map_empty.symm, nofun⟩
  next := rfl

namespace IsMoved

theorem newState (isMoved : assembly.IsMoved amount moved) :
    assembly.newState.2.IsMoved amount moved.newState.2 where
  nfa := by
    change (assembly.nfa.addState assembly.supply.next).IsMoved amount
      (moved.nfa.addState moved.supply.next)
    rw [isMoved.next]
    exact isMoved.nfa.addState _
  next := by
    change moved.supply.next + 1 = assembly.supply.next + 1 + amount
    rw [isMoved.next, Nat.add_right_comm]

/-- What is composed from moved parts is moved. -/
theorem compose (isMoved : assembly.IsMoved amount moved)
    {edges movedEdges : Fragment → List Edge}
    (same : ∀ whole : Fragment,
      movedEdges (whole.shift amount) =
        (edges whole).map (Edge.shift amount)) :
    (moved.compose movedEdges).1 = (assembly.compose edges).1.shift amount ∧
      (assembly.compose edges).2.IsMoved amount
        (moved.compose movedEdges).2 := by
  have both := isMoved.newState.newState
  have whole : moved.newFragment.1 = assembly.newFragment.1.shift amount := by
    change Fragment.mk moved.supply.next moved.newState.2.supply.next =
      Fragment.shift amount
        ⟨assembly.supply.next, assembly.newState.2.supply.next⟩
    rw [isMoved.next, isMoved.newState.next]
    rfl
  refine ⟨whole, ?_, both.next⟩
  change (assembly.newFragment.2.nfa.addEdges
      (edges assembly.newFragment.1)).IsMoved amount
    (moved.newFragment.2.nfa.addEdges (movedEdges moved.newFragment.1))
  rw [whole, same]
  exact both.nfa.addEdges _

theorem addEdges (isMoved : assembly.IsMoved amount moved)
    (edges : List Edge) :
    (assembly.addEdges edges).IsMoved amount
      (moved.addEdges (edges.map (Edge.shift amount))) where
  nfa := isMoved.nfa.addEdges edges
  next := isMoved.next

end IsMoved

end Assembly

namespace Regex

/-- A moved assembly gives a moved fragment in a moved assembly. -/
theorem isMoved_assemble (regex : Regex) {assembly moved : Assembly}
    (isMoved : assembly.IsMoved amount moved) :
    (regex.assemble moved).1 = (regex.assemble assembly).1.shift amount ∧
      (regex.assemble assembly).2.IsMoved amount
        (regex.assemble moved).2 := by
  induction regex generalizing assembly moved with
  | literal character =>
      exact isMoved.compose (Fragment.characterEdges_shift amount _)
  | oneOf members =>
      exact isMoved.compose (Fragment.characterEdges_shift amount _)
  | concatenation left right leftMoved rightMoved =>
      rcases leftMoved isMoved with ⟨leftPart, withLeft⟩
      rcases rightMoved withLeft with ⟨rightPart, withBoth⟩
      simp only [assemble, leftPart, rightPart]
      exact ⟨rfl, withBoth.addEdges _⟩
  | alternation left right leftMoved rightMoved =>
      rcases leftMoved isMoved with ⟨leftPart, withLeft⟩
      rcases rightMoved withLeft with ⟨rightPart, withBoth⟩
      simp only [assemble, leftPart, rightPart]
      exact withBoth.compose fun _ => rfl
  | repeated repetition body bodyMoved =>
      rcases bodyMoved isMoved with ⟨bodyPart, withBody⟩
      simp only [assemble, bodyPart]
      exact withBody.compose fun whole =>
        Fragment.repetitionEdges_shift amount _ whole repetition

end Regex

/-! ## Automata of patterns -/

namespace Nfa

/-- A supply that is further on moves the automaton of an expression up. -/
theorem ofRegex_shift (amount : Nat) (regex : Regex) (supply : IdSupply) :
    ofRegex regex ⟨supply.next + amount⟩ =
      ((ofRegex regex supply).1.shift amount,
        ⟨(ofRegex regex supply).2.next + amount⟩) := by
  rcases regex.isMoved_assemble (Assembly.isMoved_start amount supply) with
    ⟨part, isMoved⟩
  have occupied : (ofRegex regex supply).1.isEmpty = false :=
    ReachesOnlyStates.isEmpty_eq_false (realizes_ofRegex regex supply).only
  have next := isMoved.next
  have first := isMoved.nfa.firstId occupied
  have states := isMoved.nfa.states
  rw [ofRegex, ofRegex]
  simp only [part]
  refine Prod.ext ?_ (congrArg IdSupply.mk next)
  simp only [ofFragment, shift, Fragment.shift, first, states]

/-- A supply advances by the number of states of the automaton. -/
theorem next_ofRegex (regex : Regex) (supply : IdSupply) :
    (ofRegex regex supply).2.next =
      supply.next + (ofRegex regex supply).1.size := by
  have size : (ofRegex regex supply).1.size = 0 + regex.stateCount :=
    regex.size_assemble (Assembly.start supply)
  have next : (ofRegex regex supply).2.next =
      supply.next + regex.stateCount :=
    regex.assemble_next (Assembly.start supply)
  rw [next, size, Nat.zero_add]

/-- Any supply gives what a fresh one gives, moved up by its first number, and
advances as far. -/
theorem ofPattern_eq_shift (pattern : List Char) (supply : IdSupply) :
    ofPattern pattern supply =
      ((ofPattern pattern .fresh).1.map (shift supply.next),
        ⟨supply.next + (ofPattern pattern .fresh).2.next⟩) := by
  rw [ofPattern, ofPattern]
  cases Parser.parse pattern with
  | error failure =>
      refine Prod.ext rfl ?_
      change IdSupply.mk (supply.next + failure.stateCount) =
        ⟨supply.next + (0 + failure.stateCount)⟩
      rw [Nat.zero_add]
  | ok regex =>
      have moved := ofRegex_shift supply.next regex .fresh
      have same : (⟨IdSupply.fresh.next + supply.next⟩ : IdSupply) = supply :=
        congrArg IdSupply.mk (Nat.zero_add supply.next)
      rw [same] at moved
      simp only [moved]
      rw [Nat.add_comm]
      rfl

end Nfa

end PatternAutomata
