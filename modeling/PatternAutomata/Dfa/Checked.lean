import PatternAutomata.Checked
import PatternAutomata.Dfa.Minimize

/-!
# Checked exploration and minimization

Exploring subsets and minimizing look states up by their numbers, in the
nondeterministic automaton and in the one under construction, and members in
tables.  The operations of this module make each of these look-ups when its
turn comes and refuse the first that finds nothing.
-/

namespace PatternAutomata

/-- Why an operation on deterministic automata is refused. -/
inductive Dfa.Refusal where
  /-- The nondeterministic automaton does not have a state. -/
  | missing (absent : MissingState)
  /-- The deterministic automaton does not have a state. -/
  | outOfRange (refused : OutOfRange)
  /-- A partition does not have a group to take out. -/
  | noGroup (place count : Nat)
  /-- A table does not have an entry. -/
  | noEntry
deriving DecidableEq, Repr

/-- The text of the refusal. -/
def Dfa.Refusal.message : Refusal → String
  | .missing absent => absent.message
  | .outOfRange refused => refused.message
  | .noGroup place count =>
      "removal index (is " ++ toString place ++ ") should be < len (is " ++
        toString count ++ ")"
  | .noEntry => "no entry found for key"

instance : MonadLift (Except MissingState) (Except Dfa.Refusal) where
  monadLift result := result.mapError .missing

namespace Dfa.Checked

/-- The state with a number. -/
def state (dfa : Dfa) (id : Nat) : Except Refusal State :=
  (dfa.state id).mapError .outOfRange

/-! ## The operations on tables -/

/-- Add a state.  One that is there already is looked up. -/
def addState (members : StateSet) (isStart isFinal : Bool) (dfa : Dfa) :
    Except Refusal (Nat × Dfa) := do
  if let some id := dfa.idOf? members then
    let _ ← state dfa id
  return dfa.addState members isStart isFinal

/-- Add a transition.  Its ends are looked up. -/
def addTransition (source : Nat) (character : Char) (target : Nat)
    (dfa : Dfa) : Except Refusal Dfa := do
  let _ ← state dfa source
  let _ ← state dfa target
  return dfa.addTransition source character target

/-- Record a state as accepting or not. -/
def classify (dfa : Dfa) (id : Nat) : Except Refusal Dfa := do
  let _ ← state dfa id
  return dfa.classify id

/-! ## Exploration -/

/-- Mark a state as dealt with. -/
def mark (dfa : Dfa) (id : Nat) : Except Refusal Dfa := do
  let _ ← state dfa id
  return dfa.mark id

/-- A flag of any of the listed states.  No state is looked up after the first
that has it. -/
def anyFlag (nfa : Nfa) (flag : Nfa.State → Bool) (ids : List StateId) :
    Except MissingState Bool :=
  ids.anyM fun id => do
    let found ← Nfa.Checked.state nfa id
    return flag found

/-- Add the state with the given members, with the flags of any of them. -/
def addSubset (nfa : Nfa) (members : StateSet) (dfa : Dfa) :
    Except Refusal (Nat × Dfa) := do
  let isStart ← anyFlag nfa Nfa.State.isStart members.toList
  let isFinal ← anyFlag nfa Nfa.State.isFinal members.toList
  addState members isStart isFinal dfa

/-- The closure of the start state, about to be dealt with. -/
def start (nfa : Nfa) (alphabet : List Char) :
    Except Refusal Exploration := do
  let members ← Nfa.Checked.closure nfa [nfa.start]
  let (id, dfa) ← addSubset nfa members (empty alphabet)
  return ⟨{ dfa with start := id }, [id]⟩

/-- Add the transition from a state on a character, unless it leads to the
empty set. -/
def addTarget (nfa : Nfa) (source : Nat) (sources : StateSet)
    (exploration : Exploration) (character : Char) :
    Except Refusal Exploration := do
  let reached ← Nfa.Checked.edge nfa sources character
  let members ← Nfa.Checked.closure nfa reached.toList
  if members.isEmpty then
    return exploration
  else
    let (target, grown) ← addSubset nfa members exploration.dfa
    let dfa ← addTransition source character target grown
    let found ← state dfa target
    return ⟨dfa, if found.isMarked then exploration.waiting
      else target :: exploration.waiting⟩

/-- Deal with a state: mark it, record its class and add its transitions. -/
def expand (nfa : Nfa) (id : Nat) (exploration : Exploration) :
    Except Refusal Exploration := do
  let marked ← mark exploration.dfa id
  let dfa ← classify marked id
  let found ← state dfa id
  dfa.alphabet.foldlM (addTarget nfa id found.members)
    ⟨dfa, exploration.waiting⟩

/-- Take one state off the stack. -/
def step (nfa : Nfa) (exploration : Exploration) :
    Except Refusal Exploration :=
  match exploration.waiting with
  | [] => return exploration
  | id :: waiting => do
      let rest : Exploration := ⟨exploration.dfa, waiting⟩
      let found ← state rest.dfa id
      if found.isMarked then
        return rest
      else
        expand nfa id rest

/-- Take states off the stack until it is empty, in at most the given number
of rounds. -/
def run (nfa : Nfa) : Nat → Exploration → Except Refusal Exploration
  | 0, exploration => return exploration
  | rounds + 1, exploration => do
      if exploration.waiting.isEmpty then
        return exploration
      else
        let following ← step nfa exploration
        run nfa rounds following

/-- The deterministic automaton of the subsets of a nondeterministic one. -/
def ofNfa (nfa : Nfa) : Except Refusal Dfa := do
  let alphabet ← Nfa.Checked.alphabet nfa
  if nfa.isEmpty then
    return empty alphabet
  else
    let started ← start nfa alphabet
    let explored ← run nfa (Exploration.rounds nfa) started
    return explored.dfa

/-! ## Records -/

/-- Add the members and flags of a state. -/
def addListed (dfa : Dfa) (listed : State) : Except Refusal Dfa := do
  let (_, grown) ← addState listed.members listed.isStart listed.isFinal dfa
  return grown

/-- Add the transition of a record, if both its ends are known. -/
def addRecord (dfa : Dfa) (record : Record) : Except Refusal Dfa :=
  match dfa.idOf? record.source, dfa.idOf? record.target with
  | some source, some target =>
      addTransition source record.character target
        (dfa.addCharacter record.character)
  | _, _ => return dfa

/-- The automaton of listed states and records. -/
def ofRecords (states : List State) (records : List Record) :
    Except Refusal Dfa := do
  let withStates ← states.foldlM addListed (empty [])
  let withStart := { withStates with start := withStates.firstStart }
  let connected ← records.foldlM addRecord withStart
  (List.range connected.size).foldlM classify connected

/-! ## Minimization -/

/-- The accepting states and the other states, as far as there are any. -/
def initialPartition (dfa : Dfa) : Except Refusal Partition := do
  let flagged ← dfa.states.toList.mapM fun listed => do
    let found ← state dfa listed.id
    return (listed.id, found.isFinal)
  let (accepting, others) := flagged.partition Prod.snd
  return [Std.ExtTreeSet.ofList (accepting.map Prod.fst),
    Std.ExtTreeSet.ofList (others.map Prod.fst)].filter fun group =>
      !group.isEmpty

/-- The place in a partition of the group that a transition leads to. -/
def targetPlace (dfa : Dfa) (partition : Partition) (character : Char)
    (source : Nat) : Except Refusal Nat := do
  let _ ← state dfa source
  return dfa.targetPlace partition character source

/-- Divide a group by the places that a character leads to. -/
def divide (dfa : Dfa) (partition : Partition) (group : Group)
    (character : Char) : Except Refusal (List Group) := do
  let byPlace : Std.ExtTreeMap Nat Group ←
    group.toList.foldlM (fun classes source => do
      let place ← targetPlace dfa partition character source
      return classes.alter place fun others =>
        some ((others.getD ∅).insert source)) ∅
  return byPlace.toList.map Prod.snd

/-- Split a group by the first character that leads from its states to
different places, if there is one. -/
def split? (dfa : Dfa) (partition : Partition) (group : Group) :
    Except Refusal (Option (List Group)) := do
  if group.size < 2 then
    return none
  else
    dfa.alphabet.findSomeM? fun character => do
      let groups ← divide dfa partition group character
      return if 1 < groups.length then some groups else none

/-- Take the group at a place out of a partition. -/
def removeGroup (partition : Partition) (place : Nat) :
    Except Refusal Partition :=
  if place < partition.length then .ok (partition.eraseIdx place)
  else .error (.noGroup place partition.length)

/-- Replace the first group that can be split; the groups it is split into
come last. -/
def refine? (dfa : Dfa) (partition : Partition) :
    Except Refusal (Option Partition) := do
  let found? ← partition.zipIdx.findSomeM? fun (group, place) => do
    let groups? ← split? dfa partition group
    return groups?.map fun groups => (place, groups)
  match found? with
  | none => return none
  | some (place, groups) =>
      let rest ← removeGroup partition place
      return some (rest ++ groups)

/-- Refine a partition until no group can be split, in at most the given
number of rounds. -/
def refineFrom (dfa : Dfa) : Nat → Partition → Except Refusal Partition
  | 0, partition => return partition
  | rounds + 1, partition => do
      match ← refine? dfa partition with
      | some finer => refineFrom dfa rounds finer
      | none => return partition

/-- A flag of any of the listed states. -/
def anyStateFlag (dfa : Dfa) (flag : State → Bool) (ids : List Nat) :
    Except Refusal Bool :=
  ids.anyM fun id => do
    let found ← state dfa id
    return flag found

/-- The state that a group becomes. -/
def groupState (dfa : Dfa) (id : Nat) (group : Group) :
    Except Refusal State := do
  let members ← group.toList.mapM fun id => do
    let found ← state dfa id
    return found.members.toList
  let isStart ← anyStateFlag dfa State.isStart group.toList
  let isFinal ← anyStateFlag dfa State.isFinal group.toList
  return State.new id (Std.ExtTreeSet.ofList members.flatten) isStart isFinal

/-- The members of the new states, by the members of the old ones. -/
abbrev Unions := Std.ExtTreeMap StateSet StateSet

/-- Let the states of a group get the members of the state it becomes. -/
def unite (dfa : Dfa) (group : Group) (members : StateSet)
    (unions : Unions) : Except Refusal Unions :=
  group.toList.foldlM (fun unions id => do
    let found ← state dfa id
    return unions.insert found.members members) unions

/-- The states that groups become, numbered from the given number on, and the
members that the old states get. -/
def groupStates (dfa : Dfa) :
    Nat → Unions → List Group → Except Refusal (List State × Unions)
  | _, unions, [] => return ([], unions)
  | id, unions, group :: groups => do
      let new ← groupState dfa id group
      let larger ← unite dfa group new.members unions
      let (others, complete) ← groupStates dfa (id + 1) larger groups
      return (new :: others, complete)

/-- The record of a transition whose target gets its members from the
table. -/
def unitedRecord (dfa : Dfa) (unions : Unions) (source : StateSet)
    (edge : Char × Nat) : Except Refusal Record := do
  let found ← state dfa edge.2
  match unions[found.members]? with
  | none => throw .noEntry
  | some members => return ⟨source, edge.1, members⟩

/-- The transitions of the state that a group becomes, taken from the least
state in the group. -/
def groupRecords (dfa : Dfa) (unions : Unions) (group : Group)
    (new : State) : Except Refusal (List Record) :=
  match group.toList.head? with
  | none => return []
  | some representative =>
      let edges := dfa.alphabet.filterMap fun character =>
        (dfa.target? representative character).map fun target =>
          (character, target)
      edges.mapM (unitedRecord dfa unions new.members)

/-- Let every group become one state, the group of the start state first. -/
def merge (dfa : Dfa) (partition : Partition) : Except Refusal Dfa := do
  let (withStart, others) :=
    partition.partition fun group => dfa.start ∈ group
  let groups := withStart ++ others
  let (states, unions) ← groupStates dfa 0 ∅ groups
  let records ← (groups.zip states).mapM fun (group, new) =>
    groupRecords dfa unions group new
  ofRecords states records.flatten

/-- The automaton with one state for each group of equivalent states. -/
def minimize (dfa : Dfa) : Except Refusal Dfa := do
  let initial ← initialPartition dfa
  let stable ← refineFrom dfa dfa.size initial
  merge dfa stable

/-- Minimize a number of times. -/
def minimizeTimes : Nat → Dfa → Except Refusal Dfa
  | 0, dfa => return dfa
  | times + 1, dfa => do
      let minimal ← minimize dfa
      minimizeTimes times minimal

end Dfa.Checked

end PatternAutomata
