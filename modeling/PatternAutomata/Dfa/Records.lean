import PatternAutomata.Dfa.Basic

/-!
# Automata as lists of records

A deterministic automaton can be flattened into its states and one record per
transition, and built again from such lists.  The lists may come from
elsewhere: states with the same members become one state, a later record
replaces an earlier one for the same state and character, and a record that
names unknown members is passed over.
-/

namespace PatternAutomata.Dfa

/-- The transitions by number of the state they leave, then by character. -/
def records (dfa : Dfa) : List Record :=
  dfa.transitions.toList.flatMap fun row =>
    row.2.toList.map fun entry =>
      ⟨dfa.members row.1, entry.1, dfa.members entry.2⟩

/-- Add the members and flags of a state. -/
def addListed (dfa : Dfa) (state : State) : Dfa :=
  (dfa.addState state.members state.isStart state.isFinal).2

/-- The number of the first state that is flagged as a start, zero if none
is. -/
def firstStart (dfa : Dfa) : Nat :=
  ((dfa.states.find? State.isStart).map State.id).getD 0

/-- Add the transition of a record, if both its ends are known. -/
def addRecord (dfa : Dfa) (record : Record) : Dfa :=
  match dfa.idOf? record.source, dfa.idOf? record.target with
  | some source, some target =>
      (dfa.addCharacter record.character).addTransition
        source record.character target
  | _, _ => dfa

/-- Record the class of every state, in the order of their numbers. -/
def classifyAll (dfa : Dfa) : Dfa :=
  (List.range dfa.size).foldl classify dfa

/-- The automaton of listed states and records. -/
def ofRecords (states : List State) (records : List Record) : Dfa :=
  let withStates := states.foldl addListed (empty [])
  let withStart := { withStates with start := withStates.firstStart }
  (records.foldl addRecord withStart).classifyAll

end PatternAutomata.Dfa
