import PatternAutomata.Nfa.Basic

/-!
# Walking over an automaton

A walk visits the states that can be reached along chosen edges, each of them
once.  Newly found states wait either behind all others or in front of them,
which makes the walk breadth first or depth first.  A walk ends early at a
number that is no state, and then this number is the last one visited.

Closures under empty edges, the steps of a simulation and the alphabet are
read off walks.
-/

namespace PatternAutomata.Nfa

/-- Where newly found states wait. -/
inductive Discipline where
  /-- Behind all others, so that they are visited in the order found. -/
  | queue
  /-- In front of all others, the last one found foremost. -/
  | stack
deriving DecidableEq, Repr

namespace Discipline

/-- Let newly found states wait with others. -/
def arrange : Discipline → List StateId → List StateId → List StateId
  | queue, found, waiting => waiting ++ found
  | stack, found, waiting => found.reverse ++ waiting

end Discipline

/-- The listed numbers that are not in a set, each once. -/
def newAmong (seen : StateSet) (candidates : List StateId) : List StateId :=
  (candidates.filter fun id => ¬ id ∈ seen).eraseDups

/-- Continue a walk with the waiting numbers.  Each state is visited at most
once, so a walk takes no more than one round for every state and one for a
number that is no state. -/
def walkFrom (nfa : Nfa) (discipline : Discipline)
    (next : State → List StateId) :
    Nat → StateSet → List StateId → List StateId
  | 0, _, _ => []
  | _ + 1, _, [] => []
  | rounds + 1, seen, id :: waiting =>
      match nfa.state? id with
      | none => [id]
      | some state =>
          let found := newAmong seen (next state)
          id :: walkFrom nfa discipline next rounds
            (seen.insertMany found)
            (discipline.arrange found waiting)

/-- The numbers that a walk visits, in order. -/
def walk (nfa : Nfa) (discipline : Discipline) (next : State → List StateId)
    (starts : List StateId) : List StateId :=
  walkFrom nfa discipline next (nfa.size + 1) (Std.ExtTreeSet.ofList starts)
    (discipline.arrange starts.eraseDups [])

/-- The walk along empty edges, depth first. -/
def emptyWalk (nfa : Nfa) (starts : List StateId) : List StateId :=
  nfa.walk .stack (fun state => (state.targets .epsilon).toList) starts

/-- The walk along all edges from the start state, breadth first.  An
automaton without states has none. -/
def breadthFirst (nfa : Nfa) : List StateId :=
  if nfa.isEmpty then [] else nfa.walk .queue State.successors [nfa.start]

/-- The numbers that empty edges lead to from the given ones, these
included. -/
def closure (nfa : Nfa) (starts : List StateId) : StateSet :=
  Std.ExtTreeSet.ofList (nfa.emptyWalk starts)

/-- The numbers that edges reading a character lead to from a set. -/
def edge (nfa : Nfa) (sources : StateSet) (character : Char) : StateSet :=
  Std.ExtTreeSet.ofList (sources.toList.flatMap fun id =>
    (nfa.targets id (.char character)).toList)

/-- The states in which an automaton can be after reading a character. -/
def advance (nfa : Nfa) (current : StateSet) (character : Char) : StateSet :=
  nfa.closure (nfa.edge current character).toList

/-- The characters on the edges that can be reached from the start state, in
the order in which a breadth first walk comes upon them. -/
def alphabet (nfa : Nfa) : List Char :=
  nfa.breadthFirst.foldl (fun met id =>
    met ++ (nfa.characters id).filter fun character => ¬ character ∈ met) []

end PatternAutomata.Nfa
