import PatternAutomata.Dfa.Basic
import PatternAutomata.Nfa.Walk

/-!
# The automaton of subsets

The deterministic automaton of a nondeterministic one has a state for every
nonempty set of states in which the other can be after some word.  Such sets
are explored from the closure of the start state.  Sets that wait to be dealt
with form a stack, and one set may wait more than once; it is dealt with when
it is first taken off, and marked.
-/

namespace PatternAutomata.Dfa

/-- Mark a state as dealt with. -/
def mark (dfa : Dfa) (id : Nat) : Dfa :=
  { dfa with states := dfa.states.modify id fun state =>
      { state with isMarked := true } }

/-- Add the state with the given members.  It has the flags that any of its
members has. -/
def addSubset (nfa : Nfa) (members : StateSet) (dfa : Dfa) : Nat × Dfa :=
  dfa.addState members (members.toList.any nfa.isStart)
    (members.toList.any nfa.isFinal)

/-- An automaton of subsets under construction. -/
structure Exploration where
  /-- The automaton so far. -/
  dfa : Dfa
  /-- The states that wait to be dealt with, the next one first. -/
  waiting : List Nat
deriving DecidableEq

namespace Exploration

/-- The closure of the start state, about to be dealt with. -/
def start (nfa : Nfa) : Exploration :=
  let (id, dfa) :=
    (empty nfa.alphabet).addSubset nfa (nfa.closure [nfa.start])
  ⟨{ dfa with start := id }, [id]⟩

/-- Add the transition from a state on a character, unless it leads to the
empty set. -/
def addTarget (nfa : Nfa) (source : Nat) (exploration : Exploration)
    (character : Char) : Exploration :=
  let members := nfa.advance (exploration.dfa.members source) character
  if members.isEmpty then exploration
  else
    let (target, grown) := exploration.dfa.addSubset nfa members
    let dfa := grown.addTransition source character target
    ⟨dfa, if dfa.isMarked target then exploration.waiting
      else target :: exploration.waiting⟩

/-- Deal with a state: mark it, record its class and add its transitions. -/
def expand (nfa : Nfa) (id : Nat) (exploration : Exploration) :
    Exploration :=
  let dfa := (exploration.dfa.mark id).classify id
  dfa.alphabet.foldl (addTarget nfa id) ⟨dfa, exploration.waiting⟩

/-- Take one state off the stack. -/
def step (nfa : Nfa) (exploration : Exploration) : Exploration :=
  match exploration.waiting with
  | [] => exploration
  | id :: waiting =>
      let rest : Exploration := ⟨exploration.dfa, waiting⟩
      if rest.dfa.isMarked id then rest else rest.expand nfa id

/-- Take states off the stack until it is empty, in at most the given number
of rounds. -/
def run (nfa : Nfa) : Nat → Exploration → Exploration
  | 0, exploration => exploration
  | rounds + 1, exploration =>
      if exploration.waiting.isEmpty then exploration
      else run nfa rounds (exploration.step nfa)

/-- A number of rounds that empties the stack: the start state waits once, and
every other time a state comes to wait belongs to a set that is dealt with and
a character. -/
def rounds (nfa : Nfa) : Nat :=
  Nat.pow 2 nfa.size * nfa.alphabet.length + 1

end Exploration

/-- The deterministic automaton of the subsets of a nondeterministic one.  An
automaton without states gives one without states. -/
def ofNfa (nfa : Nfa) : Dfa :=
  if nfa.isEmpty then empty nfa.alphabet
  else
    (Exploration.run nfa (Exploration.rounds nfa) (Exploration.start nfa)).dfa

end PatternAutomata.Dfa
