import PatternAutomata.Dfa.Basic
import PatternAutomata.Nfa.Basic
import PatternAutomata.Text.Escape

/-!
# Listings of automata

A listing writes an automaton out line by line: its states with their flags,
then the transitions of each state that has any.  The listing of a
deterministic automaton also gives the members of the states, the alphabet and
the two classes, and writes the characters of transitions in escaped form.
-/

namespace PatternAutomata

namespace Text

/-- The flags of a state, as they follow its number. -/
def flags (isStart isFinal : Bool) : String :=
  (if isStart then " start" else "") ++ (if isFinal then " accepting" else "")

end Text

namespace Nfa

/-- The line of a state. -/
def stateLine (id : StateId) (state : State) : String :=
  Text.line (toString id ++ ":" ++ Text.flags state.isStart state.isFinal)

/-- The edges with one label. -/
def edgesText (label : Label) (targets : StateSet) : String :=
  " " ++ label.text ++ ":" ++ targets.text

/-- The line of the edges of a state. -/
def edgesLine (id : StateId) (state : State) : String :=
  Text.line (toString id ++ " ->" ++
    String.join (state.edges.toList.map fun entry =>
      edgesText entry.1 entry.2))

/-- The listing of the automaton. -/
def listing (nfa : Nfa) : String :=
  Text.line "NFA" ++ Text.line "States:" ++
    String.join (nfa.numberedStates.map fun numbered =>
      stateLine numbered.1 numbered.2) ++
    Text.line "Transitions:" ++
    String.join ((nfa.numberedStates.filter fun numbered =>
      !numbered.2.edges.isEmpty).map fun numbered =>
        edgesLine numbered.1 numbered.2)

end Nfa

namespace Dfa

/-- The line of a state. -/
def stateLine (state : State) : String :=
  Text.line (toString state.id ++ ": \x7b" ++ state.members.text ++ "\x7d" ++
    Text.flags state.isStart state.isFinal)

/-- The transition on one character. -/
def transitionText (character : Char) (target : Nat) : String :=
  " " ++ Text.escape character ++ ":" ++ toString target

/-- The line of the transitions of a state. -/
def transitionsLine (source : Nat) (targets : Std.ExtTreeMap Char Nat) : String :=
  Text.line (toString source ++ " ->" ++
    String.join (targets.toList.map fun entry =>
      transitionText entry.1 entry.2))

/-- The listing of the automaton. -/
def listing (dfa : Dfa) : String :=
  Text.line "DFA" ++ Text.line "States:" ++
    String.join (dfa.states.toList.map stateLine) ++
    Text.line ("Alphabet: " ++
      " ".intercalate (dfa.alphabet.map String.singleton)) ++
    Text.line ("Accepting states: " ++ Text.numbers " " dfa.accepting) ++
    Text.line ("Non-accepting states: " ++
      Text.numbers " " dfa.nonAccepting) ++
    Text.line "Transitions:" ++
    String.join (dfa.transitions.toList.map fun row =>
      transitionsLine row.1 row.2)

end Dfa

end PatternAutomata
