import PatternAutomata.IdSupply
import PatternAutomata.Label
import Std.Data.ExtTreeMap

/-!
# Nondeterministic automata

An automaton has states with consecutive numbers, labelled edges between them,
and a designated start and final state.  The targets of edges, and the
designated states, may be numbers that are no state of the automaton; such a
number has no edges.  The functions here are total: they take a number that is
no state as they find it.
-/

namespace PatternAutomata

/-- An edge of a nondeterministic automaton. -/
structure Edge where
  /-- Where the edge starts. -/
  source : StateId
  /-- What the edge reads. -/
  label : Label
  /-- Where the edge leads. -/
  target : StateId
deriving DecidableEq, Repr

/-- What a state of a nondeterministic automaton holds besides its number. -/
structure Nfa.State where
  /-- The state is flagged as the start of the automaton. -/
  isStart : Bool
  /-- The state is flagged as accepting. -/
  isFinal : Bool
  /-- The targets of the outgoing edges by label. -/
  edges : Std.ExtTreeMap Label StateSet
deriving DecidableEq

namespace Nfa.State

/-- A state without flags and edges. -/
def bare : State := ⟨false, false, ∅⟩

instance : Inhabited State := ⟨bare⟩

/-- The targets of the edges with a label. -/
def targets (state : State) (label : Label) : StateSet :=
  state.edges[label]?.getD ∅

/-- The targets of all edges, by label and then ascending. -/
def successors (state : State) : List StateId :=
  state.edges.toList.flatMap fun entry => entry.2.toList

/-- The characters that edges read, ascending. -/
def characters (state : State) : List Char :=
  state.edges.keys.filterMap Label.char?

/-- Add an edge that starts at the state. -/
def addEdge (label : Label) (target : StateId) (state : State) : State :=
  { state with
    edges := state.edges.insert label ((state.targets label).insert target) }

/-- Set the flags. -/
def flag (isStart isFinal : Bool) (state : State) : State :=
  { state with isStart := isStart, isFinal := isFinal }

end Nfa.State

/-- A nondeterministic automaton whose edges may read nothing. -/
structure Nfa where
  /-- The number of the first state. -/
  firstId : StateId
  /-- The states in the order of their numbers. -/
  states : Array Nfa.State
  /-- The designated start state. -/
  start : StateId
  /-- The designated final state. -/
  final : StateId
deriving DecidableEq

namespace Nfa

/-- The automaton without states. -/
def empty : Nfa := ⟨0, #[], 0, 0⟩

instance : Inhabited Nfa := ⟨empty⟩

/-- The number of states. -/
def size (nfa : Nfa) : Nat := nfa.states.size

/-- The automaton has no states. -/
def isEmpty (nfa : Nfa) : Bool := nfa.states.isEmpty

/-- The numbers of the states, ascending. -/
def ids (nfa : Nfa) : List StateId := List.range' nfa.firstId nfa.size

/-- The state with a number, if there is one. -/
def state? (nfa : Nfa) (id : StateId) : Option State :=
  if nfa.firstId ≤ id then nfa.states[id - nfa.firstId]? else none

/-- The number belongs to a state. -/
def contains (nfa : Nfa) (id : StateId) : Bool := (nfa.state? id).isSome

/-- The states with their numbers. -/
def numberedStates (nfa : Nfa) : List (StateId × State) :=
  nfa.ids.zip nfa.states.toList

/-- The targets of the edges from a number with a label. -/
def targets (nfa : Nfa) (id : StateId) (label : Label) : StateSet :=
  ((nfa.state? id).map fun state => state.targets label).getD ∅

/-- The characters that edges from a number read, ascending. -/
def characters (nfa : Nfa) (id : StateId) : List Char :=
  ((nfa.state? id).map State.characters).getD []

/-- The number belongs to a state that is flagged as the start. -/
def isStart (nfa : Nfa) (id : StateId) : Bool :=
  (nfa.state? id).any State.isStart

/-- The number belongs to a state that is flagged as accepting. -/
def isFinal (nfa : Nfa) (id : StateId) : Bool :=
  (nfa.state? id).any State.isFinal

/-- Change the state with a number, if there is one. -/
def modify (nfa : Nfa) (id : StateId) (change : State → State) : Nfa :=
  if nfa.firstId ≤ id then
    { nfa with states := nfa.states.modify (id - nfa.firstId) change }
  else nfa

/-- Add a state.  The number counts if the state is the first one; other
states have the number after the state before them. -/
def addState (nfa : Nfa) (id : StateId) : Nfa :=
  { nfa with
    firstId := if nfa.isEmpty then id else nfa.firstId
    states := nfa.states.push State.bare }

/-- Add an edge, if it starts at a state. -/
def addEdge (nfa : Nfa) (edge : Edge) : Nfa :=
  nfa.modify edge.source (State.addEdge edge.label edge.target)

/-- Add edges. -/
def addEdges (nfa : Nfa) (edges : List Edge) : Nfa :=
  edges.foldr (fun edge grown => grown.addEdge edge) nfa

/-- Take the flags off all states. -/
def clearFlags (nfa : Nfa) : Nfa :=
  { nfa with states := nfa.states.map (State.flag false false) }

/-- Flag the designated states, and no others, as start and accepting. -/
def markTerminals (nfa : Nfa) : Nfa :=
  let startFlagged := nfa.clearFlags.modify nfa.start fun state =>
    { state with isStart := true }
  startFlagged.modify nfa.final fun state => { state with isFinal := true }

end Nfa

end PatternAutomata
