import PatternAutomata.Proofs.Dfa.Representation

/-!
# Building an automaton again

An automaton can be flattened into its states and records and built again from
these lists.  The start state, the tables, the classes and the alphabet are not
listed; they follow from the flags and from the records, because the start
state is the first flagged one, states have different members and every
character of the alphabet occurs in a transition.  Only the marks of the
exploration and the orders of the classes and of the alphabet are not kept, and
what has been built again once is built again as it is.
-/

namespace PatternAutomata.Dfa

variable {dfa other : Dfa}

/-- The state as it is before it is dealt with. -/
def State.unmarked (state : State) : State :=
  { state with isMarked := false }

/-- The automaton that the states and the records of an automaton give. -/
def rebuild (dfa : Dfa) : Dfa :=
  ofRecords dfa.states.toList dfa.records

/-- The automaton is a copy of another one.  The states are the same but for
their marks, and the two classes and the alphabet may be listed in other
orders. -/
structure IsCopy (dfa copy : Dfa) : Prop where
  /-- The states have the same numbers, members and flags. -/
  states : copy.states = dfa.states.map State.unmarked
  /-- The states are found by the same members. -/
  index : copy.index = dfa.index
  /-- The start state is the same. -/
  start : copy.start = dfa.start
  /-- The transitions by number are the same. -/
  transitions : copy.transitions = dfa.transitions
  /-- The transitions by members are the same. -/
  structural : copy.structural = dfa.structural
  /-- The accepting states are the same. -/
  accepting : copy.accepting.Perm dfa.accepting
  /-- The other states are the same. -/
  nonAccepting : copy.nonAccepting.Perm dfa.nonAccepting
  /-- The characters of the alphabet are the same. -/
  alphabet : copy.alphabet.Perm dfa.alphabet
  /-- The same words are accepted. -/
  accepts : ∀ word, copy.accepts word = dfa.accepts word

/-! ## Lists of states and records -/

/-- Marks of listed states do not matter. -/
theorem ofRecords_map_unmarked (states : List State) (records : List Record) :
    ofRecords (states.map State.unmarked) records =
      ofRecords states records := by
  rw [ofRecords, ofRecords, List.foldl_map]
  rfl

theorem mem_records_iff {record : Record} :
    record ∈ dfa.records ↔
      ∃ source character target,
        dfa.target? source character = some target ∧
          record = ⟨dfa.members source, character, dfa.members target⟩ := by
  simp only [records, List.mem_flatMap, List.mem_map, Prod.exists,
    Std.ExtTreeMap.mem_toList_iff_getElem?_eq_some, target?,
    Option.bind_eq_some_iff]
  constructor
  · rintro ⟨source, row, known, character, target, found, rfl⟩
    exact ⟨source, character, target, ⟨row, known, found⟩, rfl⟩
  · rintro ⟨source, character, target, ⟨row, known, found⟩, rfl⟩
    exact ⟨source, row, known, character, target, found, rfl⟩

namespace IsConsistent

theorem pairwise_members_ne (consistent : dfa.IsConsistent) :
    dfa.states.toList.Pairwise fun state other =>
      state.members ≠ other.members := by
  rw [List.pairwise_iff_getElem]
  intro first second firstBound secondBound less same
  have firstFound : dfa.states[first]? = some dfa.states.toList[first] := by
    rw [← Array.getElem?_toList, List.getElem?_eq_getElem]
  have secondFound : dfa.states[second]? = some dfa.states.toList[second] := by
    rw [← Array.getElem?_toList, List.getElem?_eq_getElem]
  have equal : first = second := by
    apply consistent.eq_of_members_eq
    · exact lt_size_iff.2 ⟨_, firstFound⟩
    · exact lt_size_iff.2 ⟨_, secondFound⟩
    · rw [members_of_states firstFound, members_of_states secondFound, same]
  exact Nat.ne_of_lt less equal

theorem states_rebuild (consistent : dfa.IsConsistent) :
    dfa.rebuild.states = dfa.states.map State.unmarked := by
  rw [← Array.toList_inj, rebuild,
    toList_states_ofRecords _ _ consistent.pairwise_members_ne]
  apply List.ext_getElem?
  intro id
  rw [List.getElem?_mapIdx, Array.getElem?_toList, Array.getElem?_toList,
    Array.getElem?_map]
  apply Option.map_congr
  intro state found
  rw [← consistent.id_eq found]
  rfl

theorem size_rebuild (consistent : dfa.IsConsistent) :
    dfa.rebuild.size = dfa.size := by
  rw [size, consistent.states_rebuild]
  exact Array.size_map

theorem members_rebuild (consistent : dfa.IsConsistent) :
    dfa.rebuild.members = dfa.members := by
  funext id
  rw [members, consistent.states_rebuild, Array.getElem?_map, Option.map_map]
  rfl

theorem isFinal_rebuild (consistent : dfa.IsConsistent) :
    dfa.rebuild.isFinal = dfa.isFinal := by
  funext id
  rw [isFinal, consistent.states_rebuild, Array.getElem?_map, Option.any_map]
  rfl

/-- States with the same members are found under the same numbers. -/
theorem index_eq (consistent : dfa.IsConsistent)
    (otherConsistent : other.IsConsistent) (size : other.size = dfa.size)
    (members : other.members = dfa.members) : other.index = dfa.index := by
  apply Std.ExtTreeMap.ext_getElem?
  intro set
  have same (id : Nat) :
      other.idOf? set = some id ↔ dfa.idOf? set = some id := by
    rw [consistent.idOf?_iff, otherConsistent.idOf?_iff, size, members]
  exact Option.ext same

theorem index_rebuild (consistent : dfa.IsConsistent) :
    dfa.rebuild.index = dfa.index :=
  consistent.index_eq (isConsistent_ofRecords _ _) consistent.size_rebuild
    consistent.members_rebuild

/-! ## Tables -/

/-- A record of the automaton names the target of its own transition. -/
theorem recordTarget?_rebuild_iff (consistent : dfa.IsConsistent)
    {source target : Nat} {character : Char} :
    (∃ record ∈ dfa.records,
        dfa.rebuild.recordTarget? source character record = some target) ↔
      dfa.target? source character = some target := by
  simp only [recordTarget?_eq_some_iff, idOf?, consistent.index_rebuild]
  constructor
  · rintro ⟨record, member, sourceKnown, rfl, targetKnown⟩
    rcases mem_records_iff.1 member with ⟨_, _, _, edge, rfl⟩
    rcases consistent.lt_of_target edge with ⟨sourceInside, targetInside⟩
    have sourceFound := consistent.idOf?_members sourceInside
    have targetFound := consistent.idOf?_members targetInside
    cases sourceFound.symm.trans sourceKnown
    cases targetFound.symm.trans targetKnown
    exact edge
  · intro edge
    rcases consistent.lt_of_target edge with ⟨sourceInside, targetInside⟩
    exact ⟨_, mem_records_iff.2 ⟨source, character, target, edge, rfl⟩,
      consistent.idOf?_members sourceInside, rfl,
      consistent.idOf?_members targetInside⟩

theorem target?_rebuild (consistent : dfa.IsConsistent) :
    dfa.rebuild.target? = dfa.target? := by
  funext source character
  have named (target : Nat) :
      (∃ record ∈ dfa.records,
        dfa.rebuild.recordTarget? source character record = some target) ↔
        dfa.target? source character = some target :=
    consistent.recordTarget?_rebuild_iff
  have last : dfa.rebuild.target? source character =
      dfa.records.reverse.findSome?
        (dfa.rebuild.recordTarget? source character) :=
    target?_ofRecords _ _ source character
  cases found : dfa.rebuild.target? source character with
  | some target =>
      rcases List.exists_of_findSome?_eq_some (last.symm.trans found) with
        ⟨record, member, names⟩
      exact ((named target).1 ⟨record, List.mem_reverse.1 member, names⟩).symm
  | none =>
      have unnamed := List.findSome?_eq_none_iff.1 (last.symm.trans found)
      symm
      rw [Option.eq_none_iff_forall_ne_some]
      intro target edge
      rcases (named target).2 edge with ⟨record, member, names⟩
      rw [unnamed record (List.mem_reverse.2 member)] at names
      exact nomatch names

theorem transitions_rebuild (consistent : dfa.IsConsistent) :
    dfa.rebuild.transitions = dfa.transitions := by
  have rebuilt : dfa.rebuild.IsConsistent := isConsistent_ofRecords _ _
  apply rebuilt.transitions_rows.ext consistent.transitions_rows
  intro source character
  exact congrFun (congrFun consistent.target?_rebuild source) character

theorem structural_rebuild (consistent : dfa.IsConsistent) :
    dfa.rebuild.structural = dfa.structural := by
  have rebuilt : dfa.rebuild.IsConsistent := isConsistent_ofRecords _ _
  apply rebuilt.structural_rows.ext consistent.structural_rows
  intro members character
  have same := consistent.structural_eq members character
  rw [← consistent.members_rebuild, ← consistent.target?_rebuild, idOf?,
    ← consistent.index_rebuild] at same
  exact (rebuilt.structural_eq members character).trans same.symm

/-- The records are those that the automaton was built from. -/
theorem records_rebuild (consistent : dfa.IsConsistent) :
    dfa.rebuild.records = dfa.records := by
  rw [records, records, consistent.transitions_rebuild,
    consistent.members_rebuild]

/-- Building again twice is building again once. -/
theorem rebuild_rebuild (consistent : dfa.IsConsistent) :
    dfa.rebuild.rebuild = dfa.rebuild := by
  rw [rebuild, consistent.records_rebuild, consistent.states_rebuild,
    Array.toList_map, ofRecords_map_unmarked]
  rfl

end IsConsistent

/-! ## The start state -/

theorem firstStart_rebuild (consistent : dfa.IsConsistent) :
    dfa.rebuild.firstStart = dfa.firstStart := by
  rw [firstStart, consistent.states_rebuild, Array.find?_map, Option.map_map]
  rfl

/-- If the first state is the start state, no flagged state comes before
it. -/
theorem IsCoherent.firstStart_eq_zero (coherent : dfa.IsCoherent)
    (start : dfa.start = 0) : dfa.firstStart = 0 := by
  rw [firstStart]
  cases found : dfa.states.find? State.isStart with
  | none => rfl
  | some state =>
      rcases Array.find?_eq_some_iff_getElem.1 found with
        ⟨flagged, id, bound, same, before⟩
      have lookup := Array.getElem?_eq_some_iff.2 ⟨bound, same⟩
      have isStart : dfa.isStart id = true := by
        rw [isStart, lookup, Option.any_some, flagged]
      have first := coherent.hasStart.isStart_start id isStart
      rw [Option.map_some, Option.getD_some, coherent.consistent.id_eq lookup]
      by_contra later
      have passed := before 0 (Nat.pos_of_ne_zero later)
      rw [start, Dfa.isStart, Array.getElem?_eq_getElem (by omega),
        Option.any_some] at first
      rw [first] at passed
      cases passed

/-- The start state is the first flagged one. -/
theorem Constructed.start_eq_firstStart (constructed : dfa.Constructed) :
    dfa.start = dfa.firstStart := by
  have coherent := constructed.isCoherent
  cases constructed with
  | @ofNfa nfa built only =>
      rw [coherent.firstStart_eq_zero (start_ofNfa nfa), start_ofNfa]
  | ofRecords states records => exact start_ofRecords states records
  | minimize _ =>
      rw [Dfa.minimize, merge_eq]
      exact start_ofRecords _ _

/-! ## Copies -/

namespace IsCoherent

theorem start_rebuild (coherent : dfa.IsCoherent)
    (first : dfa.start = dfa.firstStart) : dfa.rebuild.start = dfa.start := by
  rw [first, ← firstStart_rebuild coherent.consistent]
  exact start_ofRecords _ _

theorem accepting_rebuild (coherent : dfa.IsCoherent) :
    dfa.rebuild.accepting.Perm dfa.accepting := by
  have rebuilt : dfa.rebuild.IsCoherent := isCoherent_ofRecords _ _
  rw [List.perm_ext_iff_of_nodup rebuilt.classified.nodup_accepting
    coherent.classified.nodup_accepting]
  intro id
  rw [rebuilt.classified.mem_accepting_iff,
    coherent.classified.mem_accepting_iff, coherent.consistent.size_rebuild,
    coherent.consistent.isFinal_rebuild]

theorem nonAccepting_rebuild (coherent : dfa.IsCoherent) :
    dfa.rebuild.nonAccepting.Perm dfa.nonAccepting := by
  have rebuilt : dfa.rebuild.IsCoherent := isCoherent_ofRecords _ _
  rw [List.perm_ext_iff_of_nodup rebuilt.classified.nodup_nonAccepting
    coherent.classified.nodup_nonAccepting]
  intro id
  rw [rebuilt.classified.mem_nonAccepting_iff,
    coherent.classified.mem_nonAccepting_iff,
    coherent.consistent.size_rebuild, coherent.consistent.isFinal_rebuild]

theorem alphabet_rebuild (coherent : dfa.IsCoherent) :
    dfa.rebuild.alphabet.Perm dfa.alphabet := by
  have rebuilt : dfa.rebuild.IsCoherent := isCoherent_ofRecords _ _
  rw [List.perm_ext_iff_of_nodup rebuilt.spells.nodup coherent.spells.nodup]
  intro character
  rw [rebuilt.mem_alphabet_iff, coherent.mem_alphabet_iff,
    coherent.consistent.target?_rebuild]

theorem accepts_rebuild (coherent : dfa.IsCoherent)
    (first : dfa.start = dfa.firstStart) (word : List Char) :
    dfa.rebuild.accepts word = dfa.accepts word := by
  apply accepts_eq_of_outcome?_eq
  rw [outcome?, outcome?, run?, run?, coherent.start_rebuild first,
    coherent.consistent.target?_rebuild, coherent.consistent.isFinal_rebuild]

/-- What is built from the states and records of an automaton is a copy. -/
theorem isCopy_rebuild (coherent : dfa.IsCoherent)
    (first : dfa.start = dfa.firstStart) : dfa.IsCopy dfa.rebuild where
  states := coherent.consistent.states_rebuild
  index := coherent.consistent.index_rebuild
  start := coherent.start_rebuild first
  transitions := coherent.consistent.transitions_rebuild
  structural := coherent.consistent.structural_rebuild
  accepting := coherent.accepting_rebuild
  nonAccepting := coherent.nonAccepting_rebuild
  alphabet := coherent.alphabet_rebuild
  accepts := coherent.accepts_rebuild first

end IsCoherent

/-- However an automaton comes about, its states and records give a copy of it,
and those of the copy give the copy itself. -/
theorem rebuild_isCopy_and_stable (dfa : Dfa) (constructed : dfa.Constructed) :
    dfa.IsCopy dfa.rebuild ∧ dfa.rebuild.rebuild = dfa.rebuild := by
  have coherent := constructed.isCoherent
  exact ⟨coherent.isCopy_rebuild constructed.start_eq_firstStart,
    coherent.consistent.rebuild_rebuild⟩

/-- The automaton of subsets lists its classes in the order in which the states
are dealt with, which is not the one of the copy. -/
theorem rebuild_isCopy_and_stable_loopWithDeadEnd :
    (ofNfa loopWithDeadEnd).Constructed ∧
      (ofNfa loopWithDeadEnd).rebuild ≠ ofNfa loopWithDeadEnd ∧
      (ofNfa loopWithDeadEnd).IsCopy (ofNfa loopWithDeadEnd).rebuild ∧
      (ofNfa loopWithDeadEnd).rebuild.rebuild =
        (ofNfa loopWithDeadEnd).rebuild := by
  have constructed : (ofNfa loopWithDeadEnd).Constructed :=
    .ofNfa loopWithDeadEnd_built (.inr loopWithDeadEnd_reachesOnlyStates)
  refine ⟨constructed, ?_, rebuild_isCopy_and_stable _ constructed⟩
  decide +kernel

end PatternAutomata.Dfa
