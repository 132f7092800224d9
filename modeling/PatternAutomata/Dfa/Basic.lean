import PatternAutomata.StateSet
import Std.Data.ExtTreeMap

/-!
# Deterministic automata

A deterministic state stands for a set of nondeterministic states, its
members, and no two states of one automaton have the same members.  States are
numbered from zero.  The transition function is partial: an input for which a
transition is missing is rejected.

Transitions are kept in two tables, one by number and one by members, and the
states are listed in two classes, accepting and not.  The functions of this
module keep these views in step.
-/

namespace PatternAutomata

/-- A state of a deterministic automaton. -/
structure Dfa.State where
  /-- The number of the state in its automaton. -/
  id : Nat
  /-- The nondeterministic states for which the state stands. -/
  members : StateSet
  /-- The state is flagged as a start. -/
  isStart : Bool
  /-- The state is accepting. -/
  isFinal : Bool
  /-- Exploration of subsets has dealt with the state. -/
  isMarked : Bool
deriving DecidableEq

namespace Dfa.State

/-- A state without marks. -/
def new (id : Nat) (members : StateSet) (isStart isFinal : Bool) : State :=
  ⟨id, members, isStart, isFinal, false⟩

/-- States are identified by their members alone. -/
def same (first second : State) : Bool := first.members = second.members

end Dfa.State

/-- One transition of a deterministic automaton, between sets of members. -/
structure Dfa.Record where
  /-- The members of the state that the transition leaves. -/
  source : StateSet
  /-- The character that the transition reads. -/
  character : Char
  /-- The members of the state that the transition enters. -/
  target : StateSet
deriving DecidableEq

/-- A deterministic automaton with a partial transition function. -/
structure Dfa where
  /-- The states in the order of their numbers. -/
  states : Array Dfa.State
  /-- The number of the state with given members. -/
  index : Std.ExtTreeMap StateSet Nat
  /-- The number of the start state. -/
  start : Nat
  /-- The transitions by number. -/
  transitions : Std.ExtTreeMap Nat (Std.ExtTreeMap Char Nat)
  /-- The transitions by members. -/
  structural : Std.ExtTreeMap StateSet (Std.ExtTreeMap Char StateSet)
  /-- The numbers of the accepting states, in the order of their recording. -/
  accepting : List Nat
  /-- The numbers of the other states, in the order of their recording. -/
  nonAccepting : List Nat
  /-- The characters of the automaton, without repetition. -/
  alphabet : List Char
deriving DecidableEq

namespace Dfa

/-- The automaton without states, over an alphabet. -/
def empty (alphabet : List Char) : Dfa :=
  ⟨#[], ∅, 0, ∅, ∅, [], [], alphabet⟩

instance : Inhabited Dfa := ⟨empty []⟩

/-- The number of states. -/
def size (dfa : Dfa) : Nat := dfa.states.size

/-- The members of the state with a number, none for a number without
state. -/
def members (dfa : Dfa) (id : Nat) : StateSet :=
  (dfa.states[id]?.map State.members).getD ∅

/-- The state with a number is flagged as a start. -/
def isStart (dfa : Dfa) (id : Nat) : Bool :=
  dfa.states[id]?.any State.isStart

/-- The state with a number is accepting. -/
def isFinal (dfa : Dfa) (id : Nat) : Bool :=
  dfa.states[id]?.any State.isFinal

/-- The state with a number has been dealt with. -/
def isMarked (dfa : Dfa) (id : Nat) : Bool :=
  dfa.states[id]?.any State.isMarked

/-- The number of the state with the given members, if there is one. -/
def idOf? (dfa : Dfa) (members : StateSet) : Option Nat :=
  dfa.index[members]?

/-- The number of the state that a transition leads to, if there is one. -/
def target? (dfa : Dfa) (source : Nat) (character : Char) : Option Nat :=
  dfa.transitions[source]?.bind fun targets => targets[character]?

/-- The state after reading a word, if no transition is missing. -/
def run? (dfa : Dfa) (source : Nat) (word : List Char) : Option Nat :=
  word.foldlM dfa.target? source

/-- The automaton accepts a word. -/
def accepts (dfa : Dfa) (word : List Char) : Bool :=
  !dfa.states.isEmpty && (dfa.run? dfa.start word).any dfa.isFinal

/-- Add a state with the given members and flags, and give its number.  If
there is a state with these members, the flags are added to those it has. -/
def addState (members : StateSet) (isStart isFinal : Bool) (dfa : Dfa) :
    Nat × Dfa :=
  match dfa.idOf? members with
  | some id =>
      let raise := fun state : State =>
        { state with
          isStart := state.isStart || isStart
          isFinal := state.isFinal || isFinal }
      (id, { dfa with states := dfa.states.modify id raise })
  | none =>
      let id := dfa.states.size
      (id, { dfa with
        states := dfa.states.push (State.new id members isStart isFinal)
        index := dfa.index.insert members id })

/-- Add a transition, in place of one from the same state on the same
character. -/
def addTransition (source : Nat) (character : Char) (target : Nat)
    (dfa : Dfa) : Dfa :=
  { dfa with
    transitions := dfa.transitions.alter source fun targets? =>
      some ((targets?.getD ∅).insert character target)
    structural := dfa.structural.alter (dfa.members source) fun targets? =>
      some ((targets?.getD ∅).insert character (dfa.members target)) }

/-- Record a state as accepting or not, once. -/
def classify (dfa : Dfa) (id : Nat) : Dfa :=
  if dfa.isFinal id then
    if id ∈ dfa.accepting then dfa
    else { dfa with accepting := dfa.accepting ++ [id] }
  else if id ∈ dfa.nonAccepting then dfa
  else { dfa with nonAccepting := dfa.nonAccepting ++ [id] }

/-- Add a character to the alphabet, once. -/
def addCharacter (character : Char) (dfa : Dfa) : Dfa :=
  if character ∈ dfa.alphabet then dfa
  else { dfa with alphabet := dfa.alphabet ++ [character] }

/-- Request for a state that the automaton does not have. -/
structure OutOfRange where
  /-- The number of states. -/
  size : Nat
  /-- The number asked for. -/
  id : Nat
deriving DecidableEq, Repr

/-- The text of the refusal. -/
def OutOfRange.message (refused : OutOfRange) : String :=
  "index out of bounds: the len is " ++ toString refused.size ++
    " but the index is " ++ toString refused.id

/-- The state with a number. -/
def state (dfa : Dfa) (id : Nat) : Except OutOfRange State :=
  match dfa.states[id]? with
  | some state => .ok state
  | none => .error ⟨dfa.size, id⟩

end Dfa

end PatternAutomata
