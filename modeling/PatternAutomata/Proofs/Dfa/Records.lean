import Mathlib.Data.List.Induction
import PatternAutomata.Proofs.Dfa.Tables

/-!
# Automata built from records

Whatever states and records are listed, the automaton built from them is
consistent.  Its states are the listed sets of members, each with all the flags
that are listed for it, and the first flagged one is the start state.  States
with pairwise different members keep their places.  The target of a transition
is named by the last record that fits.
-/

namespace PatternAutomata.Dfa

variable {dfa : Dfa}

/-! ## Listed states -/

theorem isConsistent_foldl_addListed (states : List State)
    (consistent : dfa.IsConsistent) :
    (states.foldl addListed dfa).IsConsistent := by
  induction states generalizing dfa with
  | nil => exact consistent
  | cons state rest added =>
      exact added
        (consistent.addState state.members state.isStart state.isFinal)

theorem target?_foldl_addListed (states : List State) (source : Nat)
    (character : Char) :
    (states.foldl addListed dfa).target? source character =
      dfa.target? source character := by
  induction states generalizing dfa with
  | nil => rfl
  | cons state rest kept =>
      rw [List.foldl_cons, kept]
      exact target?_addState _ _ _ _ _

/-- States with different members keep their places. -/
theorem toList_states_foldl_addListed {states : List State}
    (distinct : states.Pairwise fun state other =>
      state.members ≠ other.members) :
    (states.foldl addListed (empty [])).states.toList =
      states.mapIdx fun id state =>
        State.new id state.members state.isStart state.isFinal := by
  induction states using List.reverseRecOn with
  | nil => rfl
  | append_singleton front state kept =>
      rw [List.pairwise_append] at distinct
      rcases distinct with ⟨frontDistinct, -, different⟩
      replace kept := kept frontDistinct
      have consistent := isConsistent_foldl_addListed front
        (isConsistent_empty [])
      rw [List.foldl_append, List.foldl_cons, List.foldl_nil, addListed]
      generalize front.foldl addListed (empty []) = dfa at kept consistent ⊢
      have size : dfa.size = front.length := by
        rw [Dfa.size, ← Array.length_toList, kept, List.length_mapIdx]
      have unknown : dfa.idOf? state.members = none := by
        rw [Option.eq_none_iff_forall_ne_some]
        intro other found
        rcases consistent.idOf?_iff.1 found with ⟨inside, same⟩
        rcases lt_size_iff.1 inside with ⟨known, lookup⟩
        rw [members_of_states lookup] at same
        rw [← Array.getElem?_toList, kept, List.getElem?_mapIdx] at lookup
        rcases Option.map_eq_some_iff.1 lookup with ⟨listed, entry, rfl⟩
        exact different listed (List.mem_of_getElem? entry) state
          List.mem_cons_self same
      rw [addState_of_unknown unknown, Array.toList_push, kept, size,
        List.mapIdx_append]
      simp

/-- The states have the listed members. -/
theorem exists_idOf?_foldl_addListed_iff (states : List State)
    (members : StateSet) :
    (∃ id, (states.foldl addListed (empty [])).idOf? members = some id) ↔
      ∃ state ∈ states, state.members = members := by
  induction states using List.reverseRecOn with
  | nil => simp [idOf?, empty]
  | append_singleton front state known =>
      rw [List.foldl_append, List.foldl_cons, List.foldl_nil, addListed,
        idOf?_addState]
      by_cases same : members = state.members
      · simp [same]
      · simp [same, Ne.symm same, known]

/-- No listed state has members that are not found. -/
theorem any_eq_false_of_idOf?_eq_none {states : List State}
    {members : StateSet}
    (unknown : (states.foldl addListed (empty [])).idOf? members = none)
    (flag : State → Bool) :
    states.any (fun listed =>
      decide (listed.members = members) && flag listed) = false := by
  simp only [List.any_eq_false, Bool.and_eq_true, decide_eq_true_eq, not_and]
  intro listed member same
  rcases (exists_idOf?_foldl_addListed_iff states members).2
    ⟨listed, member, same⟩ with ⟨id, found⟩
  rw [unknown] at found
  cases found

/-- A state has the flags of all listed states with its members. -/
theorem flags_foldl_addListed {states : List State} {id : Nat} {state : State}
    (found :
      (states.foldl addListed (empty [])).states[id]? = some state) :
    state.isStart = states.any (fun listed =>
        decide (listed.members = state.members) && listed.isStart) ∧
      state.isFinal = states.any (fun listed =>
        decide (listed.members = state.members) && listed.isFinal) := by
  induction states using List.reverseRecOn generalizing id state with
  | nil => simp [empty] at found
  | append_singleton front added flags =>
      have consistent := isConsistent_foldl_addListed front
        (isConsistent_empty [])
      rw [List.foldl_append, List.foldl_cons, List.foldl_nil, addListed,
        consistent.states_addState] at found
      simp only [List.any_append, List.any_cons, List.any_nil, Bool.or_false]
      split at found
      · next new =>
          cases found
          cases lookup :
              (front.foldl addListed (empty [])).idOf? added.members with
          | some old =>
              -- the flags join those of the state that is there
              rw [addState_of_known lookup] at new
              subst new
              rcases consistent.idOf?_iff.1 lookup with ⟨inside, same⟩
              rcases lt_size_iff.1 inside with ⟨oldState, oldFound⟩
              rw [members_of_states oldFound] at same
              rcases flags oldFound with ⟨isStart, isFinal⟩
              rw [same] at isStart isFinal
              simp [Dfa.isStart, Dfa.isFinal, oldFound, isStart, isFinal]
          | none =>
              have absent (flag : State → Bool) :=
                any_eq_false_of_idOf?_eq_none lookup flag
              rw [addState_of_unknown lookup] at new
              simp [Dfa.isStart, Dfa.isFinal, new, size, absent]
      · next other =>
          have different : added.members ≠ state.members := by
            intro same
            have lookup := consistent.idOf?_iff.2
              ⟨lt_size_iff.2 ⟨state, found⟩,
                (members_of_states found).trans same.symm⟩
            exact other (by rw [addState_of_known lookup])
          simp [different, flags found]

/-- Listed states keep the members of the states that are there. -/
theorem members_foldl_addListed_of_lt (consistent : dfa.IsConsistent)
    (states : List State) {id : Nat} (inside : id < dfa.size) :
    id < (states.foldl addListed dfa).size ∧
      (states.foldl addListed dfa).members id = dfa.members id := by
  induction states generalizing dfa with
  | nil => exact ⟨inside, rfl⟩
  | cons state rest kept =>
      have still : id < (dfa.addListed state).size :=
        (consistent.lt_size_addState_iff _ _ _ _).2 (.inl inside)
      rcases kept (consistent.addState _ _ _) still with ⟨inside', same⟩
      refine ⟨inside', same.trans ?_⟩
      exact consistent.members_addState_of_lt _ _ _ inside

/-! ## Records -/

/-- The target that a record names for a state and a character, if both its
ends are known. -/
def recordTarget? (dfa : Dfa) (source : Nat) (character : Char)
    (record : Record) : Option Nat :=
  if dfa.idOf? record.source = some source ∧ record.character = character then
    dfa.idOf? record.target
  else none

theorem recordTarget?_eq_some_iff {source target : Nat} {character : Char}
    {record : Record} :
    dfa.recordTarget? source character record = some target ↔
      dfa.idOf? record.source = some source ∧
        record.character = character ∧
        dfa.idOf? record.target = some target := by
  rw [recordTarget?]
  split
  · next fits => exact ⟨fun found => ⟨fits.1, fits.2, found⟩, (·.2.2)⟩
  · next misses =>
      constructor
      · exact nofun
      · rintro ⟨source, character, -⟩
        exact absurd ⟨source, character⟩ misses

/-- The automata have the same states under the same numbers. -/
structure SharesStates (dfa other : Dfa) : Prop where
  states : other.states = dfa.states
  index : other.index = dfa.index
  start : other.start = dfa.start

theorem SharesStates.trans {middle other : Dfa}
    (first : dfa.SharesStates middle) (second : middle.SharesStates other) :
    dfa.SharesStates other where
  states := second.states.trans first.states
  index := second.index.trans first.index
  start := second.start.trans first.start

theorem SharesStates.recordTarget?_eq {other : Dfa}
    (shares : dfa.SharesStates other) :
    other.recordTarget? = dfa.recordTarget? := by
  unfold recordTarget? idOf?
  rw [shares.index]

theorem sharesStates_addRecord (dfa : Dfa) (record : Record) :
    dfa.SharesStates (dfa.addRecord record) := by
  rcases dfa.exists_addCharacter_eq record.character with
    ⟨alphabet, grown, -⟩
  rw [addRecord, grown]
  split
  · exact ⟨rfl, rfl, rfl⟩
  · exact ⟨rfl, rfl, rfl⟩

theorem target?_addRecord (dfa : Dfa) (record : Record) (source : Nat)
    (character : Char) :
    (dfa.addRecord record).target? source character =
      (dfa.recordTarget? source character record).or
        (dfa.target? source character) := by
  rcases dfa.exists_addCharacter_eq record.character with
    ⟨alphabet, grown, -⟩
  rw [addRecord, recordTarget?, grown]
  cases dfa.idOf? record.source with
  | none => simp
  | some found =>
      cases dfa.idOf? record.target with
      | none => simp
      | some target =>
          dsimp only
          rw [target?_addTransition]
          by_cases fits : source = found ∧ character = record.character
          · simp [fits]
          · have misses :
                ¬(some found = some source ∧ record.character = character) :=
              fun both => fits ⟨(Option.some.inj both.1).symm, both.2.symm⟩
            rw [if_neg fits, if_neg misses]
            rfl

theorem IsConsistent.addRecord (consistent : dfa.IsConsistent)
    (record : Record) : (dfa.addRecord record).IsConsistent := by
  rcases dfa.exists_addCharacter_eq record.character with
    ⟨alphabet, grown, mem_alphabet⟩
  have transferred : (dfa.addCharacter record.character).IsConsistent := by
    rw [grown]
    exact consistent.transfer (fun _ => rfl) rfl rfl rfl
      fun character member => (mem_alphabet character).2 (.inr member)
  rw [Dfa.addRecord]
  split
  · next source target sourceKnown targetKnown =>
      rw [grown] at transferred ⊢
      apply transferred.addTransition
      · exact (consistent.idOf?_iff.1 sourceKnown).1
      · exact (consistent.idOf?_iff.1 targetKnown).1
      · exact (mem_alphabet record.character).2 (.inl rfl)
  · exact consistent

theorem sharesStates_foldl_addRecord (dfa : Dfa) (records : List Record) :
    dfa.SharesStates (records.foldl addRecord dfa) := by
  induction records generalizing dfa with
  | nil => exact ⟨rfl, rfl, rfl⟩
  | cons record rest shares =>
      exact (dfa.sharesStates_addRecord record).trans (shares _)

theorem target?_foldl_addRecord (dfa : Dfa) (records : List Record)
    (source : Nat) (character : Char) :
    (records.foldl addRecord dfa).target? source character =
      (records.reverse.findSome? (dfa.recordTarget? source character)).or
        (dfa.target? source character) := by
  induction records generalizing dfa with
  | nil => rfl
  | cons record rest added =>
      rw [List.foldl_cons, added, target?_addRecord, List.reverse_cons,
        (dfa.sharesStates_addRecord record).recordTarget?_eq,
        List.findSome?_append, Option.or_assoc]
      simp

theorem IsConsistent.foldl_addRecord (consistent : dfa.IsConsistent)
    (records : List Record) :
    (records.foldl Dfa.addRecord dfa).IsConsistent := by
  induction records generalizing dfa with
  | nil => exact consistent
  | cons record rest added => exact added (consistent.addRecord record)

/-! ## The whole automaton -/

theorem exists_classifyAll_eq (dfa : Dfa) :
    ∃ accepting nonAccepting,
      dfa.classifyAll =
        { dfa with accepting := accepting, nonAccepting := nonAccepting } := by
  rw [classifyAll]
  generalize List.range dfa.size = ids
  induction ids generalizing dfa with
  | nil => exact ⟨_, _, rfl⟩
  | cons id rest classified =>
      rcases dfa.exists_classify_eq id with ⟨_, _, equal⟩
      rcases classified (dfa.classify id) with
        ⟨accepting, nonAccepting, whole⟩
      refine ⟨accepting, nonAccepting, ?_⟩
      rw [List.foldl_cons, whole, equal]

section OfRecords

variable (states : List State) (records : List Record)

/-- The automaton of the listed states, without transitions. -/
def ofStates : Dfa :=
  { states.foldl addListed (empty []) with
    start := (states.foldl addListed (empty [])).firstStart }

theorem isConsistent_ofStates : (ofStates states).IsConsistent :=
  (isConsistent_foldl_addListed states (isConsistent_empty [])).transfer
    (fun _ => rfl) rfl rfl rfl fun _ member => member

theorem ofRecords_eq :
    ofRecords states records =
      (records.foldl addRecord (ofStates states)).classifyAll :=
  rfl

theorem isConsistent_ofRecords : (ofRecords states records).IsConsistent := by
  have recorded := (isConsistent_ofStates states).foldl_addRecord records
  rw [ofRecords_eq]
  generalize records.foldl addRecord (ofStates states) = dfa at recorded ⊢
  rcases dfa.exists_classifyAll_eq with ⟨_, _, equal⟩
  rw [equal]
  exact recorded.transfer (fun _ => rfl) rfl rfl rfl fun _ member => member

theorem sharesStates_ofRecords :
    (ofStates states).SharesStates (ofRecords states records) := by
  apply (sharesStates_foldl_addRecord (ofStates states) records).trans
  rw [ofRecords_eq]
  generalize records.foldl addRecord (ofStates states) = dfa
  rcases dfa.exists_classifyAll_eq with ⟨_, _, equal⟩
  rw [equal]
  exact ⟨rfl, rfl, rfl⟩

/-- States with different members keep their places. -/
theorem toList_states_ofRecords
    (distinct : states.Pairwise fun state other =>
      state.members ≠ other.members) :
    (ofRecords states records).states.toList =
      states.mapIdx fun id state =>
        State.new id state.members state.isStart state.isFinal := by
  rw [(sharesStates_ofRecords states records).states]
  exact toList_states_foldl_addListed distinct

/-- The start state is the first one that is flagged. -/
theorem start_ofRecords :
    (ofRecords states records).start =
      (ofRecords states records).firstStart := by
  have shares := sharesStates_ofRecords states records
  rw [shares.start, firstStart, shares.states]
  rfl

/-- The states have the listed members. -/
theorem exists_idOf?_ofRecords_iff {members : StateSet} :
    (∃ id, (ofRecords states records).idOf? members = some id) ↔
      ∃ state ∈ states, state.members = members := by
  rw [← exists_idOf?_foldl_addListed_iff, idOf?,
    (sharesStates_ofRecords states records).index]
  rfl

/-- A state has the flags of all listed states with its members. -/
theorem flags_ofRecords {id : Nat} {state : State}
    (found : (ofRecords states records).states[id]? = some state) :
    state.isStart = states.any (fun listed =>
        decide (listed.members = state.members) && listed.isStart) ∧
      state.isFinal = states.any (fun listed =>
        decide (listed.members = state.members) && listed.isFinal) := by
  rw [(sharesStates_ofRecords states records).states] at found
  exact flags_foldl_addListed found

/-- The first listed state becomes the first state. -/
theorem members_ofRecords_zero (first : State) (rest : List State) :
    0 < (ofRecords (first :: rest) records).size ∧
      (ofRecords (first :: rest) records).members 0 = first.members := by
  have shares := sharesStates_ofRecords (first :: rest) records
  have consistent := (isConsistent_empty []).addState first.members
    first.isStart first.isFinal
  have occupied : 0 < ((empty []).addState first.members first.isStart
      first.isFinal).2.size :=
    Nat.zero_lt_one
  have kept := members_foldl_addListed_of_lt consistent rest occupied
  rw [size, members, shares.states]
  exact kept

/-- The last record that fits decides about a transition. -/
theorem target?_ofRecords (source : Nat) (character : Char) :
    (ofRecords states records).target? source character =
      records.reverse.findSome?
        ((ofRecords states records).recordTarget? source character) := by
  have untouched : (ofStates states).target? source character = none :=
    target?_foldl_addListed states source character
  have recorded := target?_foldl_addRecord (ofStates states) records source
    character
  rw [untouched, Option.or_none] at recorded
  rw [(sharesStates_ofRecords states records).recordTarget?_eq, ← recorded,
    ofRecords_eq]
  generalize records.foldl addRecord (ofStates states) = dfa
  rcases dfa.exists_classifyAll_eq with ⟨_, _, equal⟩
  rw [equal]
  rfl

/-! ### The start state -/

/-- A state that is listed first and flagged is the start state. -/
theorem start_ofRecords_cons {first : State} (isStart : first.isStart = true)
    (rest : List State) : (ofRecords (first :: rest) records).start = 0 := by
  have consistent := isConsistent_ofRecords (first :: rest) records
  rcases members_ofRecords_zero records first rest with ⟨occupied, members⟩
  rcases lt_size_iff.1 occupied with ⟨state, found⟩
  have flagged := (flags_ofRecords _ _ found).1
  rw [← members_of_states found, members, List.any_cons, isStart,
    decide_eq_true rfl] at flagged
  rcases Array.getElem?_eq_some_iff.1 found with ⟨bound, same⟩
  have earliest := Array.find?_eq_some_iff_getElem.2
    ⟨flagged, 0, bound, same, fun _ earlier => absurd earlier (by omega)⟩
  rw [start_ofRecords, firstStart, earliest]
  exact consistent.id_eq found

/-- The first flagged state is the start state, or else the first state. -/
theorem hasStart_ofRecords : (ofRecords states records).HasStart := by
  have consistent := isConsistent_ofRecords states records
  have start := start_ofRecords states records
  rw [firstStart] at start
  cases found : (ofRecords states records).states.find? State.isStart with
  | none =>
      rw [found] at start
      constructor
      · intro occupied
        rw [start]
        exact occupied
      · intro id isStart
        rcases (Option.any_eq_true_iff_get _ _).1 isStart with
          ⟨isSome, flagged⟩
        have member := Array.mem_of_getElem? (Option.some_get isSome).symm
        exact absurd flagged (Array.find?_eq_none.1 found _ member)
  | some state =>
      rcases Array.getElem?_of_mem (Array.mem_of_find?_eq_some found) with
        ⟨id, lookup⟩
      rw [found, Option.map_some, Option.getD_some, consistent.id_eq lookup]
        at start
      constructor
      · intro _
        rw [start]
        exact lt_size_iff.2 ⟨state, lookup⟩
      · intro _ _
        rw [start, Dfa.isStart, lookup, Option.any_some]
        exact Array.find?_some found

/-! ### The alphabet and the classes -/

/-- The alphabet lists the characters of the transitions, each once. -/
structure SpellsAlphabet (dfa : Dfa) : Prop where
  nodup : dfa.alphabet.Nodup
  occurs : ∀ character ∈ dfa.alphabet, ∃ source target,
    dfa.target? source character = some target

theorem SpellsAlphabet.addRecord (spells : dfa.SpellsAlphabet)
    (record : Record) : (dfa.addRecord record).SpellsAlphabet := by
  have nodup := nodup_alphabet_addCharacter record.character spells.nodup
  rcases dfa.exists_addCharacter_eq record.character with
    ⟨alphabet, grown, mem_alphabet⟩
  rw [Dfa.addRecord]
  split
  · next source target _ _ =>
      rw [grown] at nodup ⊢
      refine ⟨nodup, fun character member => ?_⟩
      simp only [target?_addTransition]
      rcases (mem_alphabet character).1 member with new | old
      · exact ⟨source, target, if_pos ⟨rfl, new⟩⟩
      · rcases spells.occurs character old with ⟨other, reached, found⟩
        by_cases replaced : other = source ∧ character = record.character
        · exact ⟨other, target, if_pos replaced⟩
        · exact ⟨other, reached, (if_neg replaced).trans found⟩
  · exact spells

theorem spellsAlphabet_ofRecords :
    (ofRecords states records).SpellsAlphabet := by
  have listed : (states.foldl addListed (empty [])).alphabet = [] := by
    refine List.foldlRecOn states addListed
      (motive := fun dfa => dfa.alphabet = []) (b := empty []) rfl ?_
    intro dfa none_yet state _
    rw [addListed, alphabet_addState, none_yet]
  have start : (ofStates states).SpellsAlphabet := by
    constructor <;> simp [ofStates, listed]
  have recorded : (records.foldl addRecord (ofStates states)).SpellsAlphabet :=
    List.foldlRecOn records addRecord start
      fun _ spells record _ => spells.addRecord record
  rw [ofRecords_eq]
  generalize records.foldl addRecord (ofStates states) = dfa at recorded ⊢
  rcases dfa.exists_classifyAll_eq with ⟨_, _, equal⟩
  rw [equal]
  exact ⟨recorded.nodup, recorded.occurs⟩

theorem classifies_ofRecords :
    (ofRecords states records).Classifies
      (· < (ofRecords states records).size) := by
  -- no state is recorded before all states and records are there
  have start : (empty []).Classifies fun _ => False := by
    constructor <;> simp [empty]
  have listed : (states.foldl addListed (empty [])).Classifies
      fun _ => False := by
    refine List.foldlRecOn states addListed
      (motive := fun dfa => dfa.Classifies fun _ => False) start ?_
    intro dfa classifies state _
    exact classifies.transfer (accepting_addState _ _ _)
      (nonAccepting_addState _ _ _) (fun _ => .rfl) fun _ never => never.elim
  have withStart : (ofStates states).Classifies fun _ => False :=
    listed.transfer rfl rfl (fun _ => .rfl) fun _ _ => rfl
  have recorded : (records.foldl addRecord (ofStates states)).Classifies
      fun _ => False := by
    refine List.foldlRecOn records addRecord
      (motive := fun dfa => dfa.Classifies fun _ => False) withStart ?_
    intro dfa classifies record _
    rcases dfa.exists_addCharacter_eq record.character with
      ⟨alphabet, grown, -⟩
    rw [addRecord, grown]
    split
    · exact classifies.transfer rfl rfl (fun _ => .rfl) fun _ _ => rfl
    · exact classifies
  have size : (ofRecords states records).size =
      (records.foldl addRecord (ofStates states)).size := by
    rw [Dfa.size, Dfa.size, (sharesStates_ofRecords states records).states,
      (sharesStates_foldl_addRecord _ records).states]
  rw [size, ofRecords_eq, classifyAll]
  refine (recorded.foldl_classify _).transfer rfl rfl (fun id => ?_)
    fun _ _ => rfl
  rw [List.mem_range, or_false]

end OfRecords

end PatternAutomata.Dfa
