import PatternAutomata.Proofs.Dfa.CheckedSubsets
import PatternAutomata.Proofs.Dfa.Merging

/-!
# Checked minimization

Minimizing looks up states that are in a group, targets of transitions, and the
members of such targets in a table that has those of all states in all groups.
In an automaton with consistent tables no look-up fails, and the result is such
an automaton again.
-/

namespace PatternAutomata.Dfa.Checked

variable {dfa : Dfa} {partition groups : Partition} {group : Group}

/-! ## Records -/

theorem addListed_eq_ok (consistent : dfa.IsConsistent) (listed : State) :
    addListed dfa listed = .ok (dfa.addListed listed) := by
  rw [addListed, addState_eq_ok consistent]
  rfl

theorem addRecord_eq_ok (consistent : dfa.IsConsistent) (record : Record) :
    addRecord dfa record = .ok (dfa.addRecord record) := by
  rcases dfa.exists_addCharacter_eq record.character with ⟨alphabet, grown, -⟩
  rw [addRecord, Dfa.addRecord, grown]
  cases source : dfa.idOf? record.source with
  | none => rfl
  | some start =>
      cases target : dfa.idOf? record.target with
      | none => rfl
      | some reached =>
          have sourceInside : start < { dfa with alphabet := alphabet }.size :=
            (consistent.idOf?_iff.1 source).1
          have targetInside :
              reached < { dfa with alphabet := alphabet }.size :=
            (consistent.idOf?_iff.1 target).1
          exact addTransition_eq_ok sourceInside targetInside record.character

/-- Whatever is listed, building an automaton looks up states only. -/
theorem ofRecords_eq_ok (states : List State) (records : List Record) :
    ofRecords states records = .ok (Dfa.ofRecords states records) := by
  have listed : states.foldlM addListed (empty []) =
      .ok (states.foldl Dfa.addListed (empty [])) :=
    foldlM_eq_ok IsConsistent (fun dfa consistent state _ =>
      ⟨addListed_eq_ok consistent state, consistent.addState _ _ _⟩)
      (isConsistent_empty [])
  have recorded : records.foldlM addRecord (ofStates states) =
      .ok (records.foldl Dfa.addRecord (ofStates states)) :=
    foldlM_eq_ok IsConsistent (fun dfa consistent record _ =>
      ⟨addRecord_eq_ok consistent record, consistent.addRecord record⟩)
      (isConsistent_ofStates states)
  rw [ofRecords, listed, ok_bind]
  change (records.foldlM addRecord (ofStates states) >>= _) = _
  rw [recorded, ok_bind, ofRecords_eq, classifyAll]
  generalize records.foldl Dfa.addRecord (ofStates states) = dfa
  refine foldlM_eq_ok (fun reached => reached.size = dfa.size) ?_ rfl
  intro reached same id member
  refine ⟨classify_eq_ok (same ▸ List.mem_range.1 member), ?_⟩
  rcases reached.exists_classify_eq id with ⟨_, _, equal⟩
  rw [equal]
  exact same

/-! ## Refining -/

theorem initialPartition_eq_ok (consistent : dfa.IsConsistent) :
    initialPartition dfa = .ok dfa.initialPartition := by
  have flagged : (dfa.states.toList.mapM fun listed => do
      let found ← state dfa listed.id
      return (listed.id, found.isFinal)) =
      .ok (dfa.states.toList.map fun listed =>
        (listed.id, listed.isFinal)) := by
    apply mapM_eq_ok
    intro listed member
    rcases Array.getElem?_of_mem (Array.mem_toList_iff.1 member) with
      ⟨id, lookup⟩
    rw [consistent.id_eq lookup, state_eq_ok lookup]
    rfl
  rw [initialPartition, flagged, ok_bind, List.partition_eq_filter_filter,
    Dfa.initialPartition, groupWhere, groupWhere]
  simp only [List.filter_map, List.map_map]
  rfl

theorem targetPlace_eq_ok {source : Nat} (inside : source < dfa.size)
    (character : Char) :
    targetPlace dfa partition character source =
      .ok (dfa.targetPlace partition character source) := by
  rcases lt_size_iff.1 inside with ⟨found, lookup⟩
  rw [targetPlace, state_eq_ok lookup]
  rfl

theorem divide_eq_ok (inside : ∀ id ∈ group, id < dfa.size)
    (character : Char) :
    divide dfa partition group character =
      .ok (dfa.divide partition group character) := by
  rw [divide, foldlM_eq_ok (fun _ => True) ?_ trivial]
  · rfl
  · intro classes _ source member
    rw [targetPlace_eq_ok (inside source (Std.ExtTreeSet.mem_toList.1 member))]
    exact ⟨rfl, trivial⟩

theorem split?_eq_ok (inside : ∀ id ∈ group, id < dfa.size) :
    split? dfa partition group = .ok (dfa.split? partition group) := by
  rw [split?, Dfa.split?]
  split
  · rfl
  · apply findSomeM?_eq_ok
    intro character _
    rw [divide_eq_ok inside, ok_bind]
    rfl

/-- The place of a group and the groups that it is split into. -/
def placedSplit? (dfa : Dfa) (partition : Partition) (entry : Group × Nat) :
    Option (Nat × List Group) :=
  (dfa.split? partition entry.1).map fun groups => (entry.2, groups)

/-- Splitting takes one group out and puts its parts at the end. -/
theorem refine?_eq_map (dfa : Dfa) (partition : Partition) :
    dfa.refine? partition =
      (partition.zipIdx.findSome? (placedSplit? dfa partition)).map
        fun split => partition.eraseIdx split.1 ++ split.2 := by
  rw [Dfa.refine?, List.map_findSome?]
  congr
  funext entry
  rw [Function.comp_apply, placedSplit?, Option.map_map]
  rfl

theorem refine?_eq_ok
    (inside : ∀ group ∈ partition, ∀ id ∈ group, id < dfa.size) :
    refine? dfa partition = .ok (dfa.refine? partition) := by
  have searched : (partition.zipIdx.findSomeM? fun entry => do
      let groups? ← split? dfa partition entry.1
      return groups?.map fun groups => (entry.2, groups)) =
      .ok (partition.zipIdx.findSome? (placedSplit? dfa partition)) := by
    apply findSomeM?_eq_ok
    intro entry member
    rw [split?_eq_ok (inside entry.1 (List.fst_mem_of_mem_zipIdx member)),
      ok_bind]
    rfl
  refine (congrFun (congrArg bind searched) _).trans ?_
  rw [refine?_eq_map]
  cases found : partition.zipIdx.findSome? (placedSplit? dfa partition) with
  | none => rfl
  | some split =>
      rcases List.exists_of_findSome?_eq_some found with
        ⟨entry, member, divided⟩
      rcases Option.map_eq_some_iff.1 divided with ⟨groups, -, rfl⟩
      have bound : entry.2 < partition.length := by
        rw [List.mem_zipIdx_iff_getElem?] at member
        exact (List.getElem?_eq_some_iff.1 member).1
      change (removeGroup partition entry.2 >>= _) = _
      rw [removeGroup, if_pos bound]
      rfl

theorem refineFrom_eq_ok (consistent : dfa.IsConsistent)
    (separates : dfa.Separates partition) (rounds : Nat) :
    refineFrom dfa rounds partition =
      .ok (dfa.refineFrom rounds partition) := by
  induction rounds generalizing partition with
  | zero => rfl
  | succ rounds refined =>
      rw [refineFrom, Dfa.refineFrom,
        refine?_eq_ok fun group member id => separates.lt_size member, ok_bind]
      cases step : dfa.refine? partition with
      | none => rfl
      | some finer => exact refined (separates.refine consistent step).1

/-! ## Merging -/

theorem anyStateFlag_eq_ok (flag : State → Bool) (total : Nat → Bool)
    (agrees : ∀ id found, dfa.states[id]? = some found →
      total id = flag found)
    {ids : List Nat} (inside : ∀ id ∈ ids, id < dfa.size) :
    anyStateFlag dfa flag ids = .ok (ids.any total) := by
  apply anyM_eq_ok
  intro id member
  rcases lt_size_iff.1 (inside id member) with ⟨found, lookup⟩
  rw [state_eq_ok lookup, agrees id found lookup]
  rfl

theorem groupState_eq_ok (inside : ∀ id ∈ group, id < dfa.size) (place : Nat) :
    groupState dfa place group = .ok (dfa.groupState place group) := by
  have states : ∀ id ∈ group.toList, id < dfa.size :=
    fun id member => inside id (Std.ExtTreeSet.mem_toList.1 member)
  have members : (group.toList.mapM fun id => do
      let found ← state dfa id
      return found.members.toList) =
      .ok (group.toList.map fun id => (dfa.members id).toList) := by
    apply mapM_eq_ok
    intro id member
    rcases lt_size_iff.1 (states id member) with ⟨found, lookup⟩
    rw [state_eq_ok lookup, members_of_states lookup]
    rfl
  have isStart : anyStateFlag dfa State.isStart group.toList =
      .ok (group.toList.any dfa.isStart) :=
    anyStateFlag_eq_ok State.isStart dfa.isStart
      (fun id found lookup => by rw [Dfa.isStart, lookup, Option.any_some])
      states
  have isFinal : anyStateFlag dfa State.isFinal group.toList =
      .ok (group.toList.any dfa.isFinal) :=
    anyStateFlag_eq_ok State.isFinal dfa.isFinal
      (fun id found lookup => by rw [Dfa.isFinal, lookup, Option.any_some])
      states
  rw [groupState, members, ok_bind, isStart, ok_bind, isFinal, ok_bind,
    ← List.flatMap_def]
  rfl

/-- The table has the members of the merged state for those of every state in
the groups. -/
def Unites (dfa : Dfa) (groups : Partition) (unions : Unions) : Prop :=
  ∀ group ∈ groups, ∀ id ∈ group,
    unions[dfa.members id]? = some (dfa.groupMembers group)

theorem exists_unite_eq_ok (inside : ∀ id ∈ group, id < dfa.size)
    (members : StateSet) (unions : Unions) :
    ∃ larger, unite dfa group members unions = .ok larger ∧
      (∀ id ∈ group, larger[dfa.members id]? = some members) ∧
      ∀ key, (∀ id ∈ group, dfa.members id ≠ key) →
        larger[key]? = unions[key]? := by
  have united : unite dfa group members unions =
      .ok (group.toList.foldl (fun unions id =>
        unions.insert (dfa.members id) members) unions) := by
    refine foldlM_eq_ok (fun _ => True) ?_ trivial
    intro unions _ id member
    rcases lt_size_iff.1 (inside id (Std.ExtTreeSet.mem_toList.1 member)) with
      ⟨found, lookup⟩
    rw [state_eq_ok lookup, members_of_states lookup]
    exact ⟨rfl, trivial⟩
  refine ⟨_, united, ?_⟩
  simp only [← Std.ExtTreeSet.mem_toList]
  induction group.toList using List.reverseRecOn with
  | nil => simp
  | append_singleton front id kept =>
      rcases kept with ⟨known, unknown⟩
      rw [List.foldl_append, List.foldl_cons, List.foldl_nil]
      constructor
      · intro other member
        rw [Std.ExtTreeMap.getElem?_insert]
        split
        · rfl
        · next differs =>
            rcases List.mem_append.1 member with old | new
            · exact known other old
            · rw [List.mem_singleton.1 new] at differs
              exact absurd (Std.ReflCmp.compare_self) differs
      · intro key absent
        rw [List.forall_mem_append, List.forall_mem_singleton] at absent
        rw [Std.ExtTreeMap.getElem?_insert, if_neg]
        · exact unknown key absent.1
        · rw [Std.LawfulEqCmp.compare_eq_iff_eq]
          exact absent.2

/-- Different groups have no members of states in common. -/
theorem pairwise_members_ne (consistent : dfa.IsConsistent)
    (separates : dfa.Separates groups) :
    groups.Pairwise fun group other => ∀ first ∈ group, ∀ second ∈ other,
      dfa.members first ≠ dfa.members second := by
  refine separates.apart.imp_of_mem ?_
  intro group other member otherMember apart first firstInside second
    secondInside same
  have equal := consistent.eq_of_members_eq
    (separates.lt_size member firstInside)
    (separates.lt_size otherMember secondInside) same
  exact apart first firstInside second secondInside (equal ▸ fun _ => rfl)

/-- The table is complete once all groups have become states. -/
theorem exists_groupStates_eq_ok {unions : Unions} (place : Nat)
    (finished : Partition)
    (inside : ∀ group ∈ groups, ∀ id ∈ group, id < dfa.size)
    (differ : (finished ++ groups).Pairwise fun group other =>
      ∀ first ∈ group, ∀ second ∈ other,
        dfa.members first ≠ dfa.members second)
    (unites : Unites dfa finished unions) :
    ∃ complete, groupStates dfa place unions groups =
        .ok (groups.mapIdx fun more => dfa.groupState (place + more),
          complete) ∧
      Unites dfa (finished ++ groups) complete := by
  induction groups generalizing place finished unions with
  | nil =>
      rw [List.append_nil]
      exact ⟨unions, rfl, unites⟩
  | cons group groups others =>
      rcases List.forall_mem_cons.1 inside with ⟨here, inside⟩
      rcases exists_unite_eq_ok here (dfa.groupMembers group) unions with
        ⟨larger, united, added, kept⟩
      have unitesMore : Unites dfa (finished ++ [group]) larger := by
        intro other member id otherInside
        rcases List.mem_append.1 member with old | new
        · rw [kept]
          · exact unites other old id otherInside
          · intro first firstInside
            exact Ne.symm ((List.pairwise_append.1 differ).2.2 other old group
              List.mem_cons_self id otherInside first firstInside)
        · rw [List.mem_singleton.1 new] at otherInside ⊢
          exact added id otherInside
      rw [← List.singleton_append, ← List.append_assoc] at differ ⊢
      rcases others (place + 1) (finished ++ [group]) inside differ unitesMore
        with ⟨complete, states, unitesAll⟩
      refine ⟨complete, ?_, unitesAll⟩
      rw [List.singleton_append, groupStates, groupState_eq_ok here, ok_bind]
      change (unite dfa group (dfa.groupMembers group) unions >>= _) = _
      rw [united, ok_bind, states, ok_bind, List.mapIdx_cons]
      simp only [Nat.add_assoc, Nat.add_comm 1]
      rfl

/-- The table has the members that a target gets. -/
theorem exists_mergedMembers?_eq_some {unions : Unions}
    (separates : dfa.Separates groups) (unites : Unites dfa groups unions)
    {target : Nat} (inside : target < dfa.size) :
    ∃ members, dfa.mergedMembers? groups target = some members ∧
      unions[dfa.members target]? = some members := by
  rcases (separates.covers target).2 inside with ⟨group, member, inGroup⟩
  have isSome : (groups.find? fun group => target ∈ group).isSome = true := by
    rw [List.find?_isSome]
    exact ⟨group, member, decide_eq_true inGroup⟩
  rcases Option.isSome_iff_exists.1 isSome with ⟨reached, found⟩
  refine ⟨dfa.groupMembers reached, ?_, ?_⟩
  · rw [mergedMembers?, found, Option.map_some]
  · exact unites reached (List.mem_of_find?_eq_some found) target
      (of_decide_eq_true (List.find?_some found :))

/-- The record of a transition whose target gets the members of its group. -/
def mergedRecord (dfa : Dfa) (groups : Partition) (source : StateSet)
    (edge : Char × Nat) : Record :=
  ⟨source, edge.1, (dfa.mergedMembers? groups edge.2).getD ∅⟩

theorem unitedRecord_eq_ok {unions : Unions} (separates : dfa.Separates groups)
    (unites : Unites dfa groups unions) (source : StateSet)
    {edge : Char × Nat} (inside : edge.2 < dfa.size) :
    unitedRecord dfa unions source edge =
      .ok (mergedRecord dfa groups source edge) := by
  rcases lt_size_iff.1 inside with ⟨found, lookup⟩
  rcases exists_mergedMembers?_eq_some separates unites inside with
    ⟨members, merged, entry⟩
  rw [members_of_states lookup] at entry
  rw [unitedRecord, state_eq_ok lookup, ok_bind, entry, mergedRecord, merged]
  rfl

theorem groupRecords_eq_ok {unions : Unions} {new : State}
    (consistent : dfa.IsConsistent) (separates : dfa.Separates groups)
    (unites : Unites dfa groups unions)
    (members : new.members = dfa.groupMembers group) :
    groupRecords dfa unions group new =
      .ok (dfa.groupRecords groups group) := by
  rw [groupRecords, Dfa.groupRecords]
  cases group.toList.head? with
  | none => rfl
  | some representative =>
      dsimp only
      rw [mapM_eq_ok fun edge member => ?united, List.map_filterMap]
      case united =>
        rcases List.mem_filterMap.1 member with ⟨character, -, found⟩
        rcases Option.map_eq_some_iff.1 found with ⟨target, edge, rfl⟩
        exact unitedRecord_eq_ok separates unites new.members
          (consistent.lt_of_target edge).2
      congr
      funext character
      rw [Option.map_map, members]
      cases edge : dfa.target? representative character with
      | none => rfl
      | some target =>
          rcases exists_mergedMembers?_eq_some separates unites
            (consistent.lt_of_target edge).2 with ⟨united, merged, -⟩
          simp [mergedRecord, merged]

theorem mapM_groupRecords_eq_ok {unions : Unions}
    (consistent : dfa.IsConsistent) (separates : dfa.Separates groups)
    (unites : Unites dfa groups unions) :
    ((groups.zip (groups.mapIdx dfa.groupState)).mapM fun (group, new) =>
        groupRecords dfa unions group new) =
      .ok (groups.map (dfa.groupRecords groups)) := by
  have known : groups.map (dfa.groupRecords groups) =
      (groups.zip (groups.mapIdx dfa.groupState)).map fun entry =>
        dfa.groupRecords groups entry.1 := by
    rw [← Function.comp_def, ← List.map_map, List.map_fst_zip (by simp)]
  rw [known]
  apply mapM_eq_ok
  intro entry member
  rcases List.get_of_mem member with ⟨place, rfl⟩
  apply groupRecords_eq_ok consistent separates unites
  rw [List.get_eq_getElem, List.getElem_zip, List.getElem_mapIdx]
  rfl

/-- Merging the groups of a partition that covers the states looks up states
and members that are there. -/
theorem merge_eq_ok (consistent : dfa.IsConsistent)
    (separates : dfa.Separates partition) :
    merge dfa partition = .ok (dfa.merge partition) := by
  have ordered := separates.perm (dfa.startFirst_perm partition).symm
  have nothing : Unites dfa [] ∅ := nofun
  rcases exists_groupStates_eq_ok 0 []
    (fun group member id => ordered.lt_size member)
    (pairwise_members_ne consistent ordered) nothing with
    ⟨unions, states, unites⟩
  simp only [Nat.zero_add] at states
  rw [merge, List.partition_eq_filter_filter, merge_eq]
  dsimp only
  change (groupStates dfa 0 ∅ (dfa.startFirst partition) >>= _) = _
  rw [states, ok_bind]
  change (((dfa.startFirst partition).zip _).mapM _ >>= _) = _
  rw [mapM_groupRecords_eq_ok consistent ordered unites, ok_bind,
    ofRecords_eq_ok, ← List.flatMap_def]
  rfl

/-- In an automaton with consistent tables no look-up of minimization
fails. -/
theorem minimize_eq_ok (consistent : dfa.IsConsistent) :
    minimize dfa = .ok dfa.minimize := by
  rw [minimize, initialPartition_eq_ok consistent, ok_bind,
    refineFrom_eq_ok consistent (Separates.initial consistent), ok_bind]
  exact merge_eq_ok consistent consistent.separates_stablePartition.1

/-- Minimizing may be repeated. -/
theorem minimizeTimes_eq_ok (consistent : dfa.IsConsistent) (times : Nat) :
    minimizeTimes times dfa = .ok (Dfa.minimize^[times] dfa) := by
  induction times generalizing dfa with
  | zero => rfl
  | succ times repeated =>
      have again : dfa.minimize.IsConsistent := isConsistent_ofRecords _ _
      rw [minimizeTimes, minimize_eq_ok consistent, ok_bind, repeated again,
        Function.iterate_succ_apply]

end PatternAutomata.Dfa.Checked
