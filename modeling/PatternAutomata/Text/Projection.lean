import PatternAutomata.Dfa.Basic
import PatternAutomata.Nfa.Walk

/-!
# Projections of automata

A projection flattens an automaton into texts for a renderer.  A state is
named by its number, or by its members if it is deterministic, and by whether
it is accepting; each of its transitions is an entry that names the target in
the same way, with the label in the middle.
-/

namespace PatternAutomata

/-- The entries of every state, by the name of the state. -/
abbrev Projection := Std.ExtTreeMap String (List String)

namespace Projection

/-- The name of a state. -/
def stateName (identity : String) (isFinal : Bool) : String :=
  identity ++ "@" ++ toString isFinal

/-- The entry of a transition. -/
def entry (target label : String) (isFinal : Bool) : String :=
  target ++ "@" ++ label ++ "@" ++ toString isFinal

/-- The projection of named states with their entries. -/
def ofRows (rows : List (String × List String)) : Projection :=
  rows.foldl (fun projection row => projection.insert row.1 row.2) ∅

end Projection

namespace Nfa

/-- The entries of the edges of a state, by label and target. -/
def projectionEntries (nfa : Nfa) (state : State) : List String :=
  state.edges.toList.flatMap fun edges =>
    edges.2.toList.map fun target =>
      Projection.entry (toString target) edges.1.text (nfa.isFinal target)

/-- The projection of the states that can be reached from the start state. -/
def projection (nfa : Nfa) : Projection :=
  Projection.ofRows (nfa.breadthFirst.filterMap fun id =>
    (nfa.state? id).map fun state =>
      (Projection.stateName (toString id) state.isFinal,
        nfa.projectionEntries state))

end Nfa

namespace Dfa

/-- The entries of the transitions of a state, by character. -/
def projectionEntries (dfa : Dfa) (source : Nat) : List String :=
  (dfa.transitions[source]?.getD ∅).toList.map fun transition =>
    Projection.entry (dfa.members transition.2).text
      (String.singleton transition.1) (dfa.isFinal transition.2)

/-- The projection of all states. -/
def projection (dfa : Dfa) : Projection :=
  Projection.ofRows (dfa.states.toList.map fun state =>
    (Projection.stateName state.members.text state.isFinal,
      dfa.projectionEntries state.id))

end Dfa

end PatternAutomata
