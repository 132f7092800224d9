import PatternAutomata.Dfa.Records

/-!
# Minimization

States that accept the same words can be one state.  They are found by
refining a partition of the states: at first accepting states are told from
the others, then a group is split as long as a character leads from its states
into different groups, where a missing transition counts as a group of its
own.  Each group of the final partition becomes one state, whose members are
those of all states in the group.
-/

namespace PatternAutomata.Dfa

/-- A set of deterministic states, by number. -/
abbrev Group := Std.ExtTreeSet Nat

/-- A list of groups. -/
abbrev Partition := List Group

/-- The group of the states for which a condition holds. -/
def groupWhere (dfa : Dfa) (condition : State → Bool) : Group :=
  Std.ExtTreeSet.ofList ((dfa.states.toList.filter condition).map State.id)

/-- The accepting states and the other states, as far as there are any. -/
def initialPartition (dfa : Dfa) : Partition :=
  [dfa.groupWhere State.isFinal,
    dfa.groupWhere fun state => !state.isFinal].filter fun group =>
      !group.isEmpty

/-- The members of the state that a transition leads to. -/
def structuralTarget? (dfa : Dfa) (source : Nat) (character : Char) :
    Option StateSet :=
  dfa.structural[dfa.members source]?.bind fun targets => targets[character]?

/-- The place in a partition of the group that a transition leads to, counted
from one; zero if there is no transition. -/
def targetPlace (dfa : Dfa) (partition : Partition) (character : Char)
    (source : Nat) : Nat :=
  let place? := do
    let members ← dfa.structuralTarget? source character
    let target ← dfa.idOf? members
    partition.findIdx? fun group => target ∈ group
  match place? with
  | some place => place + 1
  | none => 0

/-- Divide a group by the places that a character leads to, missing
transitions first. -/
def divide (dfa : Dfa) (partition : Partition) (group : Group)
    (character : Char) : List Group :=
  let byPlace : Std.ExtTreeMap Nat Group :=
    group.toList.foldl (fun classes source =>
      classes.alter (dfa.targetPlace partition character source) fun others =>
        some ((others.getD ∅).insert source)) ∅
  byPlace.toList.map Prod.snd

/-- Split a group by the first character that leads from its states to
different places, if there is one. -/
def split? (dfa : Dfa) (partition : Partition) (group : Group) :
    Option (List Group) :=
  if group.size < 2 then none
  else
    dfa.alphabet.findSome? fun character =>
      let groups := dfa.divide partition group character
      if 1 < groups.length then some groups else none

/-- Replace the first group that can be split; the groups it is split into
come last. -/
def refine? (dfa : Dfa) (partition : Partition) : Option Partition :=
  partition.zipIdx.findSome? fun (group, place) =>
    (dfa.split? partition group).map fun groups =>
      partition.eraseIdx place ++ groups

/-- Refine a partition until no group can be split, in at most the given
number of rounds. -/
def refineFrom (dfa : Dfa) : Nat → Partition → Partition
  | 0, partition => partition
  | rounds + 1, partition =>
      match dfa.refine? partition with
      | some finer => refineFrom dfa rounds finer
      | none => partition

/-- The partition into groups that no character splits.  Every refinement
adds a group, and there are no more groups than states. -/
def stablePartition (dfa : Dfa) : Partition :=
  dfa.refineFrom dfa.size dfa.initialPartition

/-- The members of all states in a group. -/
def groupMembers (dfa : Dfa) (group : Group) : StateSet :=
  Std.ExtTreeSet.ofList (group.toList.flatMap fun id =>
    (dfa.members id).toList)

/-- The state that a group becomes. -/
def groupState (dfa : Dfa) (id : Nat) (group : Group) : State :=
  State.new id (dfa.groupMembers group) (group.toList.any dfa.isStart)
    (group.toList.any dfa.isFinal)

/-- The members of the group that a state belongs to. -/
def mergedMembers? (dfa : Dfa) (partition : Partition) (id : Nat) :
    Option StateSet :=
  (partition.find? fun group => id ∈ group).map dfa.groupMembers

/-- The transitions of the state that a group becomes, taken from the least
state in the group. -/
def groupRecords (dfa : Dfa) (partition : Partition) (group : Group) :
    List Record :=
  match group.toList.head? with
  | none => []
  | some representative =>
      dfa.alphabet.filterMap fun character => do
        let target ← dfa.target? representative character
        let members ← dfa.mergedMembers? partition target
        return ⟨dfa.groupMembers group, character, members⟩

/-- Let every group become one state, the group of the start state first. -/
def merge (dfa : Dfa) (partition : Partition) : Dfa :=
  let (withStart, others) :=
    partition.partition fun group => dfa.start ∈ group
  let groups := withStart ++ others
  ofRecords (groups.mapIdx dfa.groupState)
    (groups.flatMap (dfa.groupRecords groups))

/-- The automaton with one state for each group of equivalent states. -/
def minimize (dfa : Dfa) : Dfa := dfa.merge dfa.stablePartition

end PatternAutomata.Dfa
