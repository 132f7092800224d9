import PatternAutomata.Proofs.Dfa.Merging
import PatternAutomata.Proofs.Shift.Dfa

/-!
# Minimization with moved members

Refinement looks at the numbers of states, their flags and the places that
characters lead to, and none of these change when members are moved up.  So
the partitions are the same, and the states that groups become have moved
members.
-/

namespace PatternAutomata.Dfa

variable {amount : Nat} {dfa other : Dfa}

/-- The record with both its sets of members moved up. -/
def Record.shift (amount : Nat) (record : Record) : Record :=
  ⟨record.source.shift amount, record.character, record.target.shift amount⟩

/-! ## Automata of moved records -/

namespace IsShift

variable (isShift : dfa.IsShift amount other)

include isShift

theorem addRecord (record : Record) :
    (dfa.addRecord record).IsShift amount
      (other.addRecord (record.shift amount)) := by
  rw [Dfa.addRecord, Dfa.addRecord, Record.shift, isShift.idOf?_eq,
    isShift.idOf?_eq]
  split
  · exact (isShift.addCharacter record.character).addTransition _ _ _
  · exact isShift

theorem firstStart_eq : other.firstStart = dfa.firstStart := by
  rw [firstStart, firstStart, isShift.states, Array.find?_map, Option.map_map]
  rfl

theorem classifyAll : dfa.classifyAll.IsShift amount other.classifyAll := by
  rw [Dfa.classifyAll, Dfa.classifyAll, isShift.size_eq]
  exact List.foldl_rel isShift fun id _ _ _ step => step.classify id

end IsShift

/-- Moved states and records give an automaton with moved members. -/
theorem isShift_ofRecords (amount : Nat) (states : List State)
    (records : List Record) :
    (ofRecords states records).IsShift amount
      (ofRecords (states.map (State.shift amount))
        (records.map (Record.shift amount))) := by
  have listed : (states.foldl addListed (empty [])).IsShift amount
      ((states.map (State.shift amount)).foldl addListed (empty [])) := by
    rw [List.foldl_map]
    apply List.foldl_rel (isShift_empty amount [])
    intro state _ dfa other step
    exact (step.addState state.members state.isStart state.isFinal).2
  have started : (ofStates states).IsShift amount
      (ofStates (states.map (State.shift amount))) :=
    { listed with start := listed.firstStart_eq }
  rw [ofRecords_eq, ofRecords_eq, List.foldl_map]
  apply IsShift.classifyAll
  exact List.foldl_rel started fun record _ _ _ step => step.addRecord record

/-! ## Refinement -/

namespace IsShift

variable (isShift : dfa.IsShift amount other)

include isShift

theorem groupWhere_eq (condition : State → Bool)
    (same : ∀ state : State, condition (state.shift amount) = condition state) :
    other.groupWhere condition = dfa.groupWhere condition := by
  have kept : condition ∘ State.shift amount = condition := funext same
  rw [groupWhere, groupWhere, isShift.states, Array.toList_map,
    List.filter_map, List.map_map, kept]
  rfl

theorem initialPartition_eq :
    other.initialPartition = dfa.initialPartition := by
  rw [initialPartition, initialPartition,
    isShift.groupWhere_eq _ fun _ => rfl, isShift.groupWhere_eq _ fun _ => rfl]

theorem structuralTarget?_eq (source : Nat) (character : Char) :
    other.structuralTarget? source character =
      (dfa.structuralTarget? source character).map
        (StateSet.shift amount) := by
  rw [structuralTarget?, structuralTarget?, isShift.members_eq,
    isShift.structural.getElem? (StateSet.shift_injective amount)]
  cases dfa.structural[dfa.members source]? with
  | none => rfl
  | some row => exact Std.ExtTreeMap.getElem?_map

theorem targetPlace_eq : other.targetPlace = dfa.targetPlace := by
  funext partition character source
  rw [targetPlace, targetPlace, isShift.structuralTarget?_eq]
  cases dfa.structuralTarget? source character with
  | none => rfl
  | some members =>
      simp only [Option.map_some, bind, Option.bind_some, isShift.idOf?_eq]

theorem refine?_eq : other.refine? = dfa.refine? := by
  have divide : other.divide = dfa.divide := by
    unfold Dfa.divide
    rw [isShift.targetPlace_eq]
  have split? : other.split? = dfa.split? := by
    unfold Dfa.split?
    rw [isShift.alphabet, divide]
  unfold refine?
  rw [split?]

/-- The groups of states stay. -/
theorem stablePartition_eq : other.stablePartition = dfa.stablePartition := by
  rw [stablePartition, stablePartition, isShift.size_eq,
    isShift.initialPartition_eq]
  generalize dfa.size = rounds, dfa.initialPartition = partition
  induction rounds generalizing partition with
  | zero => rfl
  | succ rounds refined =>
      rw [refineFrom, refineFrom, isShift.refine?_eq]
      split
      · exact refined _
      · rfl

/-! ## Merging -/

theorem groupMembers_eq (group : Group) :
    other.groupMembers group = (dfa.groupMembers group).shift amount := by
  rw [groupMembers, groupMembers, StateSet.shift_ofList, List.map_flatMap]
  simp only [isShift.members_eq, StateSet.toList_shift]

theorem groupState_eq (place : Nat) (group : Group) :
    other.groupState place group =
      (dfa.groupState place group).shift amount := by
  rw [groupState, groupState, isShift.groupMembers_eq, isShift.isStart_eq,
    isShift.isFinal_eq]
  rfl

theorem mergedMembers?_eq (groups : Partition) (id : Nat) :
    other.mergedMembers? groups id =
      (dfa.mergedMembers? groups id).map (StateSet.shift amount) := by
  rw [mergedMembers?, mergedMembers?, Option.map_map]
  congr 1
  funext group
  exact isShift.groupMembers_eq group

theorem groupRecords_eq (groups : Partition) (group : Group) :
    other.groupRecords groups group =
      (dfa.groupRecords groups group).map (Record.shift amount) := by
  rw [groupRecords, groupRecords, isShift.alphabet]
  split
  · rfl
  · next representative least =>
      rw [List.map_filterMap]
      congr 1
      funext character
      rw [isShift.target?_eq]
      cases dfa.target? representative character with
      | none => rfl
      | some target =>
          simp only [bind, Option.bind_some, isShift.mergedMembers?_eq,
            isShift.groupMembers_eq]
          cases dfa.mergedMembers? groups target with
          | none => rfl
          | some members => rfl

/-- Minimization moves members as they were moved before. -/
theorem minimize : dfa.minimize.IsShift amount other.minimize := by
  have order : other.startFirst other.stablePartition =
      dfa.startFirst dfa.stablePartition := by
    rw [startFirst, startFirst, isShift.start, isShift.stablePartition_eq]
  rw [Dfa.minimize, Dfa.minimize, merge_eq, merge_eq, order]
  generalize dfa.startFirst dfa.stablePartition = groups
  have states : groups.mapIdx other.groupState =
      (groups.mapIdx dfa.groupState).map (State.shift amount) := by
    apply List.ext_getElem?
    intro place
    rw [List.getElem?_map, List.getElem?_mapIdx, List.getElem?_mapIdx,
      Option.map_map]
    congr 1
    funext group
    exact isShift.groupState_eq place group
  have records : groups.flatMap (other.groupRecords groups) =
      (groups.flatMap (dfa.groupRecords groups)).map (Record.shift amount) := by
    rw [List.map_flatMap]
    congr 1
    funext group
    exact isShift.groupRecords_eq groups group
  rw [mergeGroups, mergeGroups, states, records]
  exact isShift_ofRecords amount _ _

/-- Minimizing any number of times moves members as they were moved
before. -/
theorem iterate_minimize (rounds : Nat) :
    (Dfa.minimize^[rounds] dfa).IsShift amount
      (Dfa.minimize^[rounds] other) := by
  induction rounds generalizing dfa other with
  | zero => exact isShift
  | succ rounds minimized => exact minimized isShift.minimize

end IsShift

end PatternAutomata.Dfa
