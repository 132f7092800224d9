import PatternAutomata.Proofs.Dfa.Records

/-!
# What states and records build

The order of the lists decides what is built from them.  The states are the
listed sets of members in the order in which they first appear, each with all
the flags that are listed for it.  A record counts if both its ends are listed,
and the last record for a set and a character decides about the transition.
The alphabet has the characters of the records that count, in the order in
which they first appear.  The other records leave no trace.
-/

namespace PatternAutomata.Dfa

variable {dfa : Dfa}

/-! ## What the lists say -/

/-- A state with the members is listed. -/
def isListed (states : List State) (members : StateSet) : Bool :=
  states.any fun state => state.members = members

/-- A state with the members is listed with the flag. -/
def isListedWith (flag : State → Bool) (states : List State)
    (members : StateSet) : Bool :=
  states.any fun state => decide (state.members = members) && flag state

/-- The listed sets in the order in which they first appear, as states with
all flags that are listed for them. -/
def listedStates (states : List State) : List State :=
  (states.map State.members).eraseDups.mapIdx fun id members =>
    State.new id members (isListedWith State.isStart states members)
      (isListedWith State.isFinal states members)

/-- A record counts if both its ends are listed. -/
def isValid (states : List State) (record : Record) : Bool :=
  isListed states record.source && isListed states record.target

/-- The records that count. -/
def validRecords (states : List State) (records : List Record) :
    List Record :=
  records.filter (isValid states)

/-- The last valid record for a set of members and a character. -/
def lastRecord? (states : List State) (records : List Record)
    (source : StateSet) (character : Char) : Option Record :=
  ((validRecords states records).filter fun record =>
    decide (record.source = source) &&
      decide (record.character = character)).getLast?

/-- The automaton is what the lists say. -/
structure IsBuiltFrom (dfa : Dfa) (states : List State)
    (records : List Record) : Prop where
  /-- The states are the listed ones. -/
  states_eq : dfa.states.toList = listedStates states
  /-- The start state is the first one that is flagged. -/
  start_le : ∀ id, dfa.isStart id = true →
    dfa.isStart dfa.start = true ∧ dfa.start ≤ id
  /-- The first state is the start state if none is flagged. -/
  start_eq_zero : (∀ id, dfa.isStart id = false) → dfa.start = 0
  /-- Transitions lead from states to states. -/
  lt_of_target : ∀ source character target,
    dfa.target? source character = some target →
      source < dfa.size ∧ target < dfa.size
  /-- The last valid record decides about a transition. -/
  target_eq : ∀ source < dfa.size, ∀ character,
    (dfa.target? source character).map dfa.members =
      (lastRecord? states records (dfa.members source) character).map
        Record.target
  /-- It decides in the table by members as well. -/
  structural_eq : ∀ members character,
    dfa.structuralArrow? members character =
      (lastRecord? states records members character).map Record.target
  /-- The characters of the valid records, as they first appear. -/
  alphabet_eq : dfa.alphabet =
    ((validRecords states records).map Record.character).eraseDups
  /-- The accepting states in the order of their numbers. -/
  accepting_eq : dfa.accepting = (List.range dfa.size).filter dfa.isFinal
  /-- The other states in the order of their numbers. -/
  nonAccepting_eq : dfa.nonAccepting =
    (List.range dfa.size).filter fun id => !dfa.isFinal id

/-! ## States -/

section States

variable (states : List State)

theorem eraseDups_append_singleton {α : Type} [BEq α] [LawfulBEq α]
    (front : List α) (last : α) :
    (front ++ [last]).eraseDups =
      if last ∈ front then front.eraseDups else front.eraseDups ++ [last] := by
  rw [List.eraseDups_append]
  split
  · next known => simp [List.removeAll, known]
  · next new => simp [List.removeAll, new, List.eraseDups_cons]

theorem map_members_modify (states : Array State) (id : Nat)
    {change : State → State}
    (kept : ∀ state, (change state).members = state.members) :
    (states.modify id change).toList.map State.members =
      states.toList.map State.members := by
  apply List.ext_getElem?
  intro place
  rw [List.getElem?_map, List.getElem?_map, Array.getElem?_toList,
    Array.getElem?_toList, Array.getElem?_modify]
  split
  · rw [Option.map_map]
    exact congrArg (Option.map · _) (funext kept)
  · rfl

/-- The members of the states are the listed ones as they first appear. -/
theorem map_members_foldl_addListed :
    (states.foldl addListed (empty [])).states.toList.map State.members =
      (states.map State.members).eraseDups := by
  induction states using List.reverseRecOn with
  | nil => rfl
  | append_singleton front state listed =>
      have known_iff := exists_idOf?_foldl_addListed_iff front state.members
      rw [List.foldl_append, List.foldl_cons, List.foldl_nil, List.map_append,
        List.map_singleton, eraseDups_append_singleton, ← listed, addListed]
      generalize front.foldl addListed (empty []) = dfa at known_iff ⊢
      cases known : dfa.idOf? state.members with
      | some id =>
          have member := known_iff.1 ⟨id, known⟩
          rw [if_pos (by simpa using member), addState_of_known known,
            map_members_modify]
          intro state
          rfl
      | none =>
          have new : state.members ∉ front.map State.members := by
            intro member
            rcases known_iff.2 (by simpa using member) with ⟨id, found⟩
            cases known.symm.trans found
          rw [if_neg new, addState_of_unknown known, Array.toList_push,
            List.map_append]
          rfl

theorem isMarked_foldl_addListed (id : Nat) :
    (states.foldl addListed (empty [])).isMarked id = false := by
  induction states using List.reverseRecOn with
  | nil => rfl
  | append_singleton front state unmarked =>
      have consistent := isConsistent_foldl_addListed front
        (isConsistent_empty [])
      rw [List.foldl_append, List.foldl_cons, List.foldl_nil, addListed,
        isMarked, consistent.states_addState]
      split
      · exact unmarked
      · exact unmarked

/-- The states are the listed ones. -/
theorem toList_states_ofRecords_eq (records : List Record) :
    (ofRecords states records).states.toList = listedStates states := by
  have consistent := isConsistent_foldl_addListed states
    (isConsistent_empty [])
  have listed := map_members_foldl_addListed states
  have unmarked := isMarked_foldl_addListed states
  rw [(sharesStates_ofRecords states records).states, listedStates, ← listed]
  apply List.ext_getElem?
  intro id
  change (states.foldl addListed (empty [])).states.toList[id]? = _
  rw [List.getElem?_mapIdx, List.getElem?_map, Array.getElem?_toList]
  cases found : (states.foldl addListed (empty [])).states[id]? with
  | none => rfl
  | some state =>
      rcases flags_foldl_addListed found with ⟨isStart, isFinal⟩
      have notMarked := unmarked id
      rw [isMarked, found, Option.any_some] at notMarked
      rw [Option.map_some, Option.map_some, isListedWith, isListedWith,
        ← isStart, ← isFinal, State.new, ← consistent.id_eq found, ← notMarked]

end States

/-! ## Records -/

section Records

variable {states : List State} {record : Record}

theorem isListed_iff (shares : (ofStates states).SharesStates dfa)
    {members : StateSet} :
    isListed states members = true ↔
      ∃ id, dfa.idOf? members = some id := by
  rw [isListed, List.any_eq_true, idOf?, shares.index]
  simp only [decide_eq_true_eq]
  exact (exists_idOf?_foldl_addListed_iff states members).symm

theorem isValid_iff (shares : (ofStates states).SharesStates dfa) :
    isValid states record = true ↔
      ∃ source target, dfa.idOf? record.source = some source ∧
        dfa.idOf? record.target = some target := by
  rw [isValid, Bool.and_eq_true, isListed_iff shares, isListed_iff shares]
  constructor
  · rintro ⟨⟨source, sourceKnown⟩, target, targetKnown⟩
    exact ⟨source, target, sourceKnown, targetKnown⟩
  · rintro ⟨source, target, sourceKnown, targetKnown⟩
    exact ⟨⟨source, sourceKnown⟩, target, targetKnown⟩

/-- A record that does not count is passed over. -/
theorem addRecord_of_not_isValid
    (shares : (ofStates states).SharesStates dfa)
    (invalid : isValid states record = false) :
    dfa.addRecord record = dfa := by
  rw [addRecord]
  split
  · next source target sourceKnown targetKnown =>
      have valid := (isValid_iff shares).2
        ⟨source, target, sourceKnown, targetKnown⟩
      rw [invalid] at valid
      cases valid
  · rfl

/-- A record that counts adds its character. -/
theorem alphabet_addRecord (shares : (ofStates states).SharesStates dfa) :
    (dfa.addRecord record).alphabet =
      if isValid states record && !decide (record.character ∈ dfa.alphabet)
      then dfa.alphabet ++ [record.character] else dfa.alphabet := by
  cases valid : isValid states record with
  | false => rw [addRecord_of_not_isValid shares valid]; rfl
  | true =>
      rcases (isValid_iff shares).1 valid with
        ⟨source, target, sourceKnown, targetKnown⟩
      rw [addRecord, sourceKnown, targetKnown]
      change (dfa.addCharacter record.character).alphabet = _
      rw [addCharacter]
      by_cases known : record.character ∈ dfa.alphabet
      · simp [known]
      · simp [known]

/-- The records that do not count leave no trace. -/
theorem foldl_addRecord_validRecords
    (shares : (ofStates states).SharesStates dfa) (records : List Record) :
    (validRecords states records).foldl addRecord dfa =
      records.foldl addRecord dfa := by
  induction records generalizing dfa with
  | nil => rfl
  | cons record rest same =>
      have next := shares.trans (dfa.sharesStates_addRecord record)
      rw [validRecords, List.filter_cons]
      split
      · exact same next
      · next invalid =>
          rw [Bool.not_eq_true] at invalid
          rw [List.foldl_cons, addRecord_of_not_isValid shares invalid]
          exact same shares

theorem map_members_idOf? (consistent : dfa.IsConsistent)
    (shares : (ofStates states).SharesStates dfa) (members : StateSet) :
    (dfa.idOf? members).map dfa.members =
      if isListed states members then some members else none := by
  cases known : dfa.idOf? members with
  | some id =>
      rw [if_pos ((isListed_iff shares).2 ⟨id, known⟩), Option.map_some,
        (consistent.idOf?_iff.1 known).2]
  | none =>
      rw [if_neg, Option.map_none]
      intro listed
      rcases (isListed_iff shares).1 listed with ⟨id, found⟩
      cases known.symm.trans found

/-- A record names the target of a transition if it counts and fits. -/
theorem map_members_recordTarget? (consistent : dfa.IsConsistent)
    (shares : (ofStates states).SharesStates dfa) {source : Nat}
    (inside : source < dfa.size) (character : Char) (record : Record) :
    (dfa.recordTarget? source character record).map dfa.members =
      if isValid states record &&
        (decide (record.source = dfa.members source) &&
          decide (record.character = character))
      then some record.target else none := by
  have known := consistent.idOf?_members inside
  have source_iff : dfa.idOf? record.source = some source ↔
      record.source = dfa.members source := by
    rw [consistent.idOf?_iff, and_iff_right inside, eq_comm]
  simp only [recordTarget?, source_iff]
  by_cases fits : record.source = dfa.members source ∧
      record.character = character
  · have listed : isListed states record.source = true :=
      (isListed_iff shares).2 ⟨source, fits.1 ▸ known⟩
    rw [if_pos fits, map_members_idOf? consistent shares, isValid, listed,
      decide_eq_true fits.1, decide_eq_true fits.2]
    simp
  · rw [if_neg fits, if_neg]
    · rfl
    · simpa using fun _ => not_and.1 fits

theorem findSome?_ite {α β : Type} (test : α → Bool) (image : α → β)
    (list : List α) :
    (list.findSome? fun entry =>
        if test entry then some (image entry) else none) =
      (list.find? test).map image := by
  induction list with
  | nil => rfl
  | cons entry rest same =>
      rw [List.findSome?_cons, List.find?_cons]
      cases test entry with
      | true => rfl
      | false => exact same

/-- The last record that counts and fits decides about a transition. -/
theorem map_members_target?_ofRecords (records : List Record) {source : Nat}
    (inside : source < (ofRecords states records).size) (character : Char) :
    ((ofRecords states records).target? source character).map
        (ofRecords states records).members =
      (lastRecord? states records ((ofRecords states records).members source)
        character).map Record.target := by
  have named := funext (map_members_recordTarget?
    (isConsistent_ofRecords states records)
    (sharesStates_ofRecords states records) inside character)
  rw [target?_ofRecords, List.map_findSome?]
  refine (congrArg (records.reverse.findSome? ·) named).trans ?_
  rw [findSome?_ite, lastRecord?, validRecords, List.filter_filter,
    List.getLast?_filter]
  simp only [Bool.and_comm]

/-- No record leaves a set that is not listed. -/
theorem lastRecord?_eq_none {members : StateSet}
    (unlisted : isListed states members = false) (records : List Record)
    (character : Char) :
    lastRecord? states records members character = none := by
  rw [lastRecord?, List.getLast?_filter, List.find?_eq_none]
  intro record member
  have valid := (List.mem_filter.1 (List.mem_reverse.1 member)).2
  rw [isValid, Bool.and_eq_true] at valid
  simp only [Bool.and_eq_true, decide_eq_true_eq, not_and]
  rintro rfl
  rw [unlisted] at valid
  cases valid.1

theorem structuralArrow?_ofRecords (records : List Record)
    (members : StateSet) (character : Char) :
    (ofRecords states records).structuralArrow? members character =
      (lastRecord? states records members character).map Record.target := by
  have consistent := isConsistent_ofRecords states records
  have shares := sharesStates_ofRecords states records
  rw [consistent.structural_eq]
  cases known : (ofRecords states records).idOf? members with
  | some source =>
      rcases consistent.idOf?_iff.1 known with ⟨inside, rfl⟩
      exact map_members_target?_ofRecords records inside character
  | none =>
      rw [lastRecord?_eq_none]
      · rfl
      · simp [← Bool.not_eq_true, isListed_iff shares, known]

/-- The alphabet has the characters of the records that count. -/
theorem alphabet_foldl_addRecord
    (shares : (ofStates states).SharesStates dfa) (empty : dfa.alphabet = [])
    (records : List Record) :
    (records.foldl addRecord dfa).alphabet =
      ((validRecords states records).map Record.character).eraseDups := by
  induction records using List.reverseRecOn with
  | nil => exact empty
  | append_singleton front record same =>
      have reached := shares.trans (dfa.sharesStates_foldl_addRecord front)
      rw [List.foldl_append, List.foldl_cons, List.foldl_nil,
        alphabet_addRecord reached, same, validRecords, validRecords,
        List.filter_append, List.map_append]
      cases valid : isValid states record with
      | false => simp [valid]
      | true =>
          simp only [valid, List.filter_cons, if_true, List.filter_nil,
            List.map_cons, List.map_nil, eraseDups_append_singleton,
            List.mem_eraseDups]
          grind

end Records

/-! ## The start state and the classes -/

section Whole

variable (states : List State) (records : List Record)

/-- The start state is the first flagged one. -/
theorem start_ofRecords_le {id : Nat}
    (flagged : (ofRecords states records).isStart id = true) :
    (ofRecords states records).start ≤ id := by
  have start := start_ofRecords states records
  rw [firstStart] at start
  cases found : (ofRecords states records).states.find? State.isStart with
  | none =>
      rw [start, found]
      exact Nat.zero_le _
  | some state =>
      rcases Array.find?_eq_some_iff_getElem.1 found with
        ⟨-, place, bound, same, before⟩
      have lookup := Array.getElem?_eq_some_iff.2 ⟨bound, same⟩
      rw [found, Option.map_some, Option.getD_some,
        (isConsistent_ofRecords states records).id_eq lookup] at start
      rw [start]
      by_contra earlier
      have passed := before id (Nat.lt_of_not_le earlier)
      rw [isStart, Array.getElem?_eq_getElem (by omega), Option.any_some]
        at flagged
      rw [flagged] at passed
      cases passed

/-- Without flags the first state is the start state. -/
theorem start_ofRecords_eq_zero
    (unflagged : ∀ id, (ofRecords states records).isStart id = false) :
    (ofRecords states records).start = 0 := by
  have none_found : (ofRecords states records).states.find? State.isStart =
      none := by
    rw [Array.find?_eq_none]
    intro state member isStart
    rcases Array.getElem?_of_mem member with ⟨id, found⟩
    have absent := unflagged id
    rw [Dfa.isStart, found, Option.any_some, isStart] at absent
    cases absent
  rw [start_ofRecords, firstStart, none_found]
  rfl

/-- Recording new states lists them in order. -/
theorem classes_foldl_classify (dfa : Dfa) {ids : List Nat}
    (nodup : ids.Nodup)
    (new : ∀ id ∈ ids, id ∉ dfa.accepting ∧ id ∉ dfa.nonAccepting) :
    (ids.foldl classify dfa).accepting =
        dfa.accepting ++ ids.filter dfa.isFinal ∧
      (ids.foldl classify dfa).nonAccepting =
        dfa.nonAccepting ++ ids.filter fun id => !dfa.isFinal id := by
  induction ids generalizing dfa with
  | nil => simp
  | cons id ids classified =>
      rcases List.nodup_cons.1 nodup with ⟨once, nodup⟩
      rcases List.forall_mem_cons.1 new with ⟨first, others⟩
      rw [List.foldl_cons, classify]
      cases final : dfa.isFinal id with
      | true =>
          rw [if_pos rfl, if_neg first.1]
          rcases classified { dfa with accepting := dfa.accepting ++ [id] }
            nodup (by grind) with ⟨accepting, nonAccepting⟩
          rw [accepting, nonAccepting, List.filter_cons, List.filter_cons,
            final, List.append_assoc]
          exact ⟨rfl, rfl⟩
      | false =>
          rw [if_neg Bool.false_ne_true, if_neg first.2]
          rcases classified
            { dfa with nonAccepting := dfa.nonAccepting ++ [id] }
            nodup (by grind) with ⟨accepting, nonAccepting⟩
          rw [accepting, nonAccepting, List.filter_cons, List.filter_cons,
            final, List.append_assoc]
          exact ⟨rfl, rfl⟩

/-- States alone fill neither the alphabet nor the classes. -/
theorem lists_ofStates :
    (ofStates states).alphabet = [] ∧ (ofStates states).accepting = [] ∧
      (ofStates states).nonAccepting = [] := by
  refine List.foldlRecOn states addListed (motive := fun dfa =>
    dfa.alphabet = [] ∧ dfa.accepting = [] ∧ dfa.nonAccepting = [])
    (b := empty []) ⟨rfl, rfl, rfl⟩ ?_
  intro dfa unfilled state _
  rw [addListed, alphabet_addState, accepting_addState, nonAccepting_addState]
  exact unfilled

theorem classes_addRecord (dfa : Dfa) (record : Record) :
    (dfa.addRecord record).accepting = dfa.accepting ∧
      (dfa.addRecord record).nonAccepting = dfa.nonAccepting := by
  rcases dfa.exists_addCharacter_eq record.character with ⟨_, grown, -⟩
  rw [addRecord, grown]
  split
  · exact ⟨rfl, rfl⟩
  · exact ⟨rfl, rfl⟩

/-- The classes list the states in the order of their numbers. -/
theorem classes_ofRecords :
    (ofRecords states records).accepting =
        (List.range (ofRecords states records).size).filter
          (ofRecords states records).isFinal ∧
      (ofRecords states records).nonAccepting =
        (List.range (ofRecords states records).size).filter fun id =>
          !(ofRecords states records).isFinal id := by
  have unclassified : (records.foldl addRecord (ofStates states)).accepting =
        [] ∧ (records.foldl addRecord (ofStates states)).nonAccepting = [] := by
    refine List.foldlRecOn records addRecord (motive := fun dfa =>
      dfa.accepting = [] ∧ dfa.nonAccepting = []) (lists_ofStates states).2 ?_
    intro dfa unclassified record _
    rcases dfa.classes_addRecord record with ⟨accepting, nonAccepting⟩
    rw [accepting, nonAccepting]
    exact unclassified
  have recorded := sharesStates_foldl_addRecord (ofStates states) records
  have whole := sharesStates_ofRecords states records
  have isFinal : (ofRecords states records).isFinal =
      (records.foldl addRecord (ofStates states)).isFinal := by
    funext id
    rw [Dfa.isFinal, Dfa.isFinal, whole.states, recorded.states]
  have size : (ofRecords states records).size =
      (records.foldl addRecord (ofStates states)).size := by
    rw [Dfa.size, Dfa.size, whole.states, recorded.states]
  rw [isFinal, size, ofRecords_eq, classifyAll]
  generalize records.foldl addRecord (ofStates states) = dfa at unclassified ⊢
  rcases classes_foldl_classify dfa List.nodup_range
    (by simp [unclassified]) with ⟨accepting, nonAccepting⟩
  rw [accepting, nonAccepting, unclassified.1, unclassified.2]
  exact ⟨rfl, rfl⟩

/-- What is built from states and records is what the lists say, and records
that do not count may be left out or put in anywhere. -/
theorem ofRecords_isBuiltFrom :
    (ofRecords states records).IsBuiltFrom states records ∧
      ∀ other, validRecords states other = validRecords states records →
        ofRecords states other = ofRecords states records := by
  have consistent := isConsistent_ofRecords states records
  have shares : (ofStates states).SharesStates (ofStates states) :=
    ⟨rfl, rfl, rfl⟩
  constructor
  · constructor
    case states_eq => exact toList_states_ofRecords_eq states records
    case start_le =>
      intro id flagged
      exact ⟨(hasStart_ofRecords states records).isStart_start id flagged,
        start_ofRecords_le states records flagged⟩
    case start_eq_zero => exact start_ofRecords_eq_zero states records
    case lt_of_target =>
      intro source character target found
      exact consistent.lt_of_target found
    case target_eq =>
      intro source inside character
      exact map_members_target?_ofRecords records inside character
    case structural_eq => exact structuralArrow?_ofRecords records
    case alphabet_eq =>
      have recorded := alphabet_foldl_addRecord shares
        (lists_ofStates states).1 records
      rw [ofRecords_eq]
      generalize records.foldl addRecord (ofStates states) = dfa at recorded ⊢
      rcases dfa.exists_classifyAll_eq with ⟨_, _, equal⟩
      rw [equal]
      exact recorded
    case accepting_eq => exact (classes_ofRecords states records).1
    case nonAccepting_eq => exact (classes_ofRecords states records).2
  · intro other same
    rw [ofRecords_eq, ofRecords_eq, ← foldl_addRecord_validRecords shares,
      same, foldl_addRecord_validRecords shares]

end Whole

end PatternAutomata.Dfa
