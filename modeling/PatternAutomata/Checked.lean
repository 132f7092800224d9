import PatternAutomata.Dfa.Subsets
import PatternAutomata.Nfa.Assembly
import PatternAutomata.Text.Projection

/-!
# Checked operations

Edges may lead to numbers that are no state, and an automaton may designate
such a number as its start.  The operations of this module have the results of
the total ones as long as they come upon states only, and refuse the first
number they come upon that is no state.
-/

namespace PatternAutomata

/-- An operation came upon a number that is no state. -/
structure MissingState where
  /-- The number. -/
  id : StateId
  /-- The number of the first state of the automaton. -/
  firstId : StateId
  /-- The number of states of the automaton. -/
  count : Nat
deriving DecidableEq, Repr

/-- The text of the refusal. -/
def MissingState.message (missing : MissingState) : String :=
  "state " ++ toString missing.id ++ " is not part of the NFA with states " ++
    toString missing.firstId ++ ".." ++
    toString (missing.firstId + missing.count)

namespace Nfa.Checked

/-- Refuse the first of the listed numbers that is no state. -/
def require (nfa : Nfa) (ids : List StateId) : Except MissingState Unit :=
  match ids.find? fun id => !nfa.contains id with
  | none => .ok ()
  | some id => .error ⟨id, nfa.firstId, nfa.size⟩

/-- The state with a number. -/
def state (nfa : Nfa) (id : StateId) : Except MissingState State :=
  match nfa.state? id with
  | some state => .ok state
  | none => .error ⟨id, nfa.firstId, nfa.size⟩

/-- The targets of the edges from a number with a label. -/
def targets (nfa : Nfa) (id : StateId) (label : Label) :
    Except MissingState StateSet := do
  let found ← state nfa id
  return found.targets label

/-- Add edges, the source of each being a state. -/
def addEdges (nfa : Nfa) (edges : List Edge) : Except MissingState Nfa := do
  require nfa (edges.map Edge.source)
  return nfa.addEdges edges

/-- Flag the designated states as start and accepting.  An automaton without
states needs none. -/
def markTerminals (nfa : Nfa) : Except MissingState Nfa := do
  if nfa.isEmpty then
    return nfa
  else
    require nfa [nfa.start, nfa.final]
    return nfa.markTerminals

/-- The numbers that empty edges lead to from the given ones. -/
def closure (nfa : Nfa) (starts : List StateId) :
    Except MissingState StateSet := do
  require nfa (nfa.emptyWalk starts)
  return nfa.closure starts

/-- The numbers that edges reading a character lead to from a set. -/
def edge (nfa : Nfa) (sources : StateSet) (character : Char) :
    Except MissingState StateSet := do
  require nfa sources.toList
  return nfa.edge sources character

/-- Simulate the automaton from the states it can be in. -/
def acceptsFrom (nfa : Nfa) :
    StateSet → List Char → Except MissingState Bool
  | current, [] => .ok (current.toList.any nfa.isFinal)
  | current, character :: rest => do
      let reached ← edge nfa current character
      let following ← closure nfa reached.toList
      if following.isEmpty then return false
      else acceptsFrom nfa following rest

/-- The automaton accepts a word: after reading it, the automaton can be in an
accepting state. -/
def accepts (nfa : Nfa) (word : List Char) : Except MissingState Bool := do
  if nfa.isEmpty then
    return false
  else
    let start ← closure nfa [nfa.start]
    acceptsFrom nfa start word

/-- The characters on the edges that can be reached from the start state.  A
state is looked up when the walk visits it. -/
def alphabet (nfa : Nfa) : Except MissingState (List Char) :=
  nfa.breadthFirst.foldlM (fun met id => do
    let found ← state nfa id
    return met ++ found.characters.filter fun character =>
      ¬ character ∈ met) []

/-- The entries of the edges of a state, by label and target.  A target is
looked up when its entry is written. -/
def projectionEntries (nfa : Nfa) (source : State) :
    Except MissingState (List String) :=
  let edges := source.edges.toList.flatMap fun (label, targets) =>
    targets.toList.map fun target => (label, target)
  edges.mapM fun (label, target) => do
    let found ← state nfa target
    return Projection.entry (toString target) label.text found.isFinal

/-- The name and the entries of a state. -/
def projectionRow (nfa : Nfa) (id : StateId) :
    Except MissingState (String × List String) := do
  let found ← state nfa id
  let entries ← projectionEntries nfa found
  return (Projection.stateName (toString id) found.isFinal, entries)

/-- The projection of the states that can be reached from the start state. -/
def projection (nfa : Nfa) : Except MissingState Projection := do
  let rows ← nfa.breadthFirst.mapM (projectionRow nfa)
  return Projection.ofRows rows

/-- The deterministic automaton of the subsets. -/
def determinize (nfa : Nfa) : Except MissingState Dfa := do
  require nfa nfa.breadthFirst
  return Dfa.ofNfa nfa

end Nfa.Checked

namespace Assembly.Checked

/-- Add edges, the source of each being a state. -/
def addEdges (edges : List Edge) (assembly : Assembly) :
    Except MissingState Assembly := do
  let nfa ← Nfa.Checked.addEdges assembly.nfa edges
  return { assembly with nfa }

/-- Add a new fragment together with edges that start at states. -/
def compose (edges : Fragment → List Edge) (assembly : Assembly) :
    Except MissingState (Fragment × Assembly) := do
  let (whole, grown) := assembly.newFragment
  let connected ← addEdges (edges whole) grown
  return (whole, connected)

/-- A fragment that passes through one fragment and then another. -/
def concatenate (left right : Fragment) (assembly : Assembly) :
    Except MissingState (Fragment × Assembly) := do
  let connected ←
    addEdges (Fragment.concatenationEdges left right) assembly
  return (⟨left.start, right.final⟩, connected)

/-- A fragment that passes through either of two fragments. -/
def alternate (left right : Fragment) :
    Assembly → Except MissingState (Fragment × Assembly) :=
  compose (Fragment.alternationEdges left right)

/-- A fragment that passes through another one repeatedly. -/
def repeated (repetition : Repetition) (body : Fragment) :
    Assembly → Except MissingState (Fragment × Assembly) :=
  compose fun whole => Fragment.repetitionEdges body whole repetition

end Assembly.Checked

end PatternAutomata
