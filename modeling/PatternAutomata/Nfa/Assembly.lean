import PatternAutomata.CharacterClass
import PatternAutomata.Nfa.Basic
import PatternAutomata.Pattern.Operator

/-!
# Assembling automata from fragments

A fragment is a part of an automaton that is entered at one state and left at
another.  Fragments are composed by empty edges: the composition of a
repetition or an alternation lies between two new states, a concatenation
leads from the end of one fragment to the start of the next and needs no
state of its own.
-/

namespace PatternAutomata

/-- A part of an automaton between two states. -/
structure Fragment where
  /-- Where the fragment is entered. -/
  start : StateId
  /-- Where the fragment is left. -/
  final : StateId
deriving DecidableEq, Repr

namespace Fragment

/-- An edge that reads nothing. -/
def emptyEdge (source target : StateId) : Edge := ⟨source, .epsilon, target⟩

/-- The edges that pass through one fragment and then another. -/
def concatenationEdges (left right : Fragment) : List Edge :=
  [emptyEdge left.final right.start]

/-- The edges that pass through either of two fragments. -/
def alternationEdges (left right whole : Fragment) : List Edge :=
  [emptyEdge whole.start left.start, emptyEdge whole.start right.start,
    emptyEdge left.final whole.final, emptyEdge right.final whole.final]

/-- The edges that pass through a fragment repeatedly.  What may happen more
than once leads back; what may not happen at all leads past the fragment. -/
def repetitionEdges (body whole : Fragment) : Repetition → List Edge
  | .zeroOrMore =>
      [emptyEdge whole.start body.start, emptyEdge whole.start whole.final,
        emptyEdge body.final body.start, emptyEdge body.final whole.final]
  | .oneOrMore =>
      [emptyEdge whole.start body.start,
        emptyEdge body.final body.start, emptyEdge body.final whole.final]
  | .zeroOrOne =>
      [emptyEdge whole.start body.start, emptyEdge whole.start whole.final,
        emptyEdge body.final whole.final]

/-- The edges that read one character of a class. -/
def characterEdges (members : CharacterClass) (whole : Fragment) : List Edge :=
  members.toList.map fun character =>
    ⟨whole.start, .char character, whole.final⟩

end Fragment

/-- An automaton that is being put together, with the supply of the numbers
of its states. -/
structure Assembly where
  /-- The automaton so far. -/
  nfa : Nfa
  /-- The supply of state numbers. -/
  supply : IdSupply
deriving DecidableEq

namespace Assembly

/-- Nothing has been put together. -/
def start (supply : IdSupply) : Assembly := ⟨Nfa.empty, supply⟩

/-- Add a state. -/
def newState (assembly : Assembly) : StateId × Assembly :=
  let (id, supply) := assembly.supply.take
  (id, ⟨assembly.nfa.addState id, supply⟩)

/-- Add a start and a final state, with nothing between them yet. -/
def newFragment (assembly : Assembly) : Fragment × Assembly :=
  let (start, withStart) := assembly.newState
  let (final, withBoth) := withStart.newState
  (⟨start, final⟩, withBoth)

/-- Add edges. -/
def addEdges (assembly : Assembly) (edges : List Edge) : Assembly :=
  { assembly with nfa := assembly.nfa.addEdges edges }

/-- Add a new fragment together with edges that depend on it. -/
def compose (edges : Fragment → List Edge) (assembly : Assembly) :
    Fragment × Assembly :=
  let (whole, grown) := assembly.newFragment
  (whole, grown.addEdges (edges whole))

/-- A fragment that reads one character. -/
def literal (character : Char) : Assembly → Fragment × Assembly :=
  compose (Fragment.characterEdges {character})

/-- A fragment that reads one character of a class. -/
def oneOf (members : CharacterClass) : Assembly → Fragment × Assembly :=
  compose (Fragment.characterEdges members)

/-- A fragment that passes through one fragment and then another. -/
def concatenate (left right : Fragment) (assembly : Assembly) :
    Fragment × Assembly :=
  (⟨left.start, right.final⟩,
    assembly.addEdges (Fragment.concatenationEdges left right))

/-- A fragment that passes through either of two fragments. -/
def alternate (left right : Fragment) : Assembly → Fragment × Assembly :=
  compose (Fragment.alternationEdges left right)

/-- A fragment that passes through another one repeatedly. -/
def repeated (repetition : Repetition) (body : Fragment) :
    Assembly → Fragment × Assembly :=
  compose fun whole => Fragment.repetitionEdges body whole repetition

end Assembly

end PatternAutomata
