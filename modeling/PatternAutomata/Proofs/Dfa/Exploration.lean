import Mathlib.Data.Finset.Card
import Mathlib.Data.Finset.Powerset
import Mathlib.Data.Finset.Range
import PatternAutomata.Dfa.Subsets
import PatternAutomata.Proofs.Dfa.Tables
import PatternAutomata.Proofs.Nfa.Simulation

/-!
# Exploring the subsets of an automaton

An exploration is sound if its states are sets in which a simulation can be,
with the flags of their members, and if it has found every transition of the
states it has dealt with.  Dealing with a state keeps this.  The sets that are
not yet dealt with bound the rounds that are still needed, so the number of
rounds suffices and in the end no state waits.
-/

namespace PatternAutomata

/-- The states in which an automaton can be after one more character, if there
are any. -/
def Nfa.next? (nfa : Nfa) (current : StateSet) (character : Char) :
    Option StateSet :=
  if (nfa.advance current character).isEmpty then none
  else some (nfa.advance current character)

namespace Dfa

variable {nfa : Nfa} {dfa : Dfa}

/-- The state stands for a set that a simulation holds after some word, and it
has the flags of its members. -/
structure State.IsSubset (nfa : Nfa) (state : State) : Prop where
  isStart : state.isStart = state.members.toList.any nfa.isStart
  isFinal : state.isFinal = state.members.toList.any nfa.isFinal
  nonempty : state.members ≠ ∅
  after : ∃ word, state.members = nfa.after word

/-! ## Marks -/

theorem states_mark (dfa : Dfa) (id other : Nat) :
    (dfa.mark id).states[other]? =
      (dfa.states[other]?).map fun state =>
        if other = id then { state with isMarked := true } else state := by
  rw [mark, Array.getElem?_modify]
  by_cases same : id = other
  · simp [same]
  · simp [same, Ne.symm same]

@[simp]
theorem size_mark (dfa : Dfa) (id : Nat) : (dfa.mark id).size = dfa.size :=
  Array.size_modify

@[simp]
theorem members_mark (dfa : Dfa) (id other : Nat) :
    (dfa.mark id).members other = dfa.members other := by
  rw [members, members, states_mark, Option.map_map]
  congr 2
  ext1 state
  dsimp only [Function.comp]
  split <;> rfl

@[simp]
theorem isFinal_mark (dfa : Dfa) (id other : Nat) :
    (dfa.mark id).isFinal other = dfa.isFinal other := by
  rw [isFinal, isFinal, states_mark, Option.any_map]
  congr 1
  ext1 state
  split <;> rfl

theorem isMarked_mark (dfa : Dfa) {id : Nat} (inside : id < dfa.size)
    (other : Nat) :
    (dfa.mark id).isMarked other = true ↔
      other = id ∨ dfa.isMarked other = true := by
  rw [isMarked, isMarked, states_mark]
  by_cases same : other = id
  · subst same
    rcases lt_size_iff.1 inside with ⟨state, found⟩
    simp [found]
  · simp [same]

theorem IsConsistent.mark (consistent : dfa.IsConsistent) (id : Nat) :
    (dfa.mark id).IsConsistent := by
  apply consistent.transfer
  · intro other
    rw [states_mark, Option.map_map]
    congr 1
    ext1 state
    dsimp only [Function.comp]
    split <;> rfl
  · rfl
  · rfl
  · rfl
  · intro character member
    exact member

/-! ## Adding subsets -/

namespace IsConsistent

theorem isMarked_addState (consistent : dfa.IsConsistent)
    (members : StateSet) (isStart isFinal : Bool) (id : Nat) :
    (dfa.addState members isStart isFinal).2.isMarked id =
      dfa.isMarked id := by
  rw [Dfa.isMarked, consistent.states_addState]
  split
  · rfl
  · rfl

theorem lt_size_addSubset_iff (consistent : dfa.IsConsistent) (nfa : Nfa)
    (members : StateSet) {id : Nat} :
    id < (dfa.addSubset nfa members).2.size ↔
      id < dfa.size ∨ id = (dfa.addSubset nfa members).1 :=
  consistent.lt_size_addState_iff _ _ _ _

theorem members_addSubset_of_lt (consistent : dfa.IsConsistent) (nfa : Nfa)
    (members : StateSet) {id : Nat} (inside : id < dfa.size) :
    (dfa.addSubset nfa members).2.members id = dfa.members id :=
  consistent.members_addState_of_lt _ _ _ inside

theorem members_fst_addSubset (consistent : dfa.IsConsistent) (nfa : Nfa)
    (members : StateSet) :
    (dfa.addSubset nfa members).2.members (dfa.addSubset nfa members).1 =
      members :=
  (consistent.members_addState _ _ _ _).trans (if_pos rfl)

/-- A state that is added again has its flags already. -/
theorem isSubset_addSubset (consistent : dfa.IsConsistent)
    (subsets : ∀ {id : Nat} {state : State},
      dfa.states[id]? = some state → state.IsSubset nfa)
    {members : StateSet} (nonempty : members ≠ ∅)
    (after : ∃ word, members = nfa.after word) {id : Nat} {state : State}
    (found : (dfa.addSubset nfa members).2.states[id]? = some state) :
    state.IsSubset nfa := by
  rw [addSubset, consistent.states_addState] at found
  split at found
  · next added =>
      cases found
      cases known : dfa.states[id]? with
      | none => exact ⟨by simp [isStart, known], by simp [isFinal, known],
          nonempty, after⟩
      | some old =>
          have same : old.members = members := by
            rw [← members_of_states known, ← consistent.members_addState_of_lt
              members (members.toList.any nfa.isStart)
              (members.toList.any nfa.isFinal) (lt_size_iff.2 ⟨old, known⟩),
              consistent.members_addState, if_pos added]
          have subset := subsets known
          rw [isStart, isFinal, known]
          refine ⟨?_, ?_, nonempty, after⟩
          · simp [subset.isStart, same]
          · simp [subset.isFinal, same]
  · exact subsets found

end IsConsistent

namespace Exploration

variable {source : Nat} {character : Char} {exploration : Exploration}

theorem addTarget_of_isEmpty
    (empty :
      (nfa.advance (exploration.dfa.members source) character).isEmpty =
        true) :
    exploration.addTarget nfa source character = exploration :=
  if_pos empty

theorem addTarget_of_not_isEmpty
    (nonempty :
      ¬(nfa.advance (exploration.dfa.members source) character).isEmpty =
        true) :
    exploration.addTarget nfa source character =
      let added := exploration.dfa.addSubset nfa
        (nfa.advance (exploration.dfa.members source) character)
      ⟨added.2.addTransition source character added.1,
        if added.2.isMarked added.1 then exploration.waiting
        else added.1 :: exploration.waiting⟩ :=
  if_neg nonempty

theorem lt_size_addTarget (consistent : exploration.dfa.IsConsistent)
    {id : Nat} (inside : id < exploration.dfa.size) :
    id < (exploration.addTarget nfa source character).dfa.size := by
  by_cases empty :
      (nfa.advance (exploration.dfa.members source) character).isEmpty = true
  · rw [addTarget_of_isEmpty empty]
    exact inside
  · rw [addTarget_of_not_isEmpty empty]
    exact (consistent.lt_size_addSubset_iff nfa _).2 (.inl inside)

theorem isMarked_addTarget (consistent : exploration.dfa.IsConsistent)
    (id : Nat) :
    (exploration.addTarget nfa source character).dfa.isMarked id =
      exploration.dfa.isMarked id := by
  by_cases empty :
      (nfa.advance (exploration.dfa.members source) character).isEmpty = true
  · rw [addTarget_of_isEmpty empty]
  · rw [addTarget_of_not_isEmpty empty]
    exact consistent.isMarked_addState _ _ _ id

theorem length_waiting_addTarget_le :
    (exploration.addTarget nfa source character).waiting.length ≤
      exploration.waiting.length + 1 := by
  by_cases empty :
      (nfa.advance (exploration.dfa.members source) character).isEmpty = true
  · rw [addTarget_of_isEmpty empty]
    exact Nat.le_succ _
  · rw [addTarget_of_not_isEmpty empty]
    dsimp only
    split
    · exact Nat.le_succ _
    · exact Nat.le_refl _

end Exploration

/-! ### The start state

The closure of the start state is the first set that is added, and the start
state stays what it is.
-/

theorem start_classify (dfa : Dfa) (id : Nat) :
    (dfa.classify id).start = dfa.start := by
  rcases dfa.exists_classify_eq id with ⟨accepting, nonAccepting, equal⟩
  rw [equal]

namespace Exploration

variable {exploration : Exploration}

theorem start_addTarget (source : Nat) (character : Char) :
    (exploration.addTarget nfa source character).dfa.start =
      exploration.dfa.start := by
  by_cases empty :
      (nfa.advance (exploration.dfa.members source) character).isEmpty = true
  · rw [addTarget_of_isEmpty empty]
  · rw [addTarget_of_not_isEmpty empty]
    exact exploration.dfa.start_addState _ _ _

theorem start_expand (id : Nat) :
    (exploration.expand nfa id).dfa.start = exploration.dfa.start := by
  refine List.foldlRecOn (motive := fun reached : Exploration =>
    reached.dfa.start = exploration.dfa.start) _ _ ?_ ?_
  · exact start_classify _ id
  · intro reached same character _
    rw [start_addTarget, same]

theorem start_step :
    (exploration.step nfa).dfa.start = exploration.dfa.start := by
  rcases exploration with ⟨dfa, _ | ⟨id, waiting⟩⟩
  · rfl
  · rw [step]
    dsimp only
    split
    · rfl
    · exact start_expand id

theorem start_run (rounds : Nat) :
    (exploration.run nfa rounds).dfa.start = exploration.dfa.start := by
  induction rounds generalizing exploration with
  | zero => rfl
  | succ rounds same =>
      rw [run]
      split
      · rfl
      · rw [same, start_step]

end Exploration

/-! ## The invariant -/

/-- What holds of an exploration at any time.  The pending pairs are those of
a state that is being dealt with and a character that is still to come. -/
structure Exploring (nfa : Nfa) (pending : List (Nat × Char))
    (exploration : Exploration) : Prop where
  consistent : exploration.dfa.IsConsistent
  alphabet : exploration.dfa.alphabet = nfa.alphabet
  subsets : ∀ {id : Nat} {state : State},
    exploration.dfa.states[id]? = some state → state.IsSubset nfa
  start_lt : exploration.dfa.start < exploration.dfa.size
  members_start :
    exploration.dfa.members exploration.dfa.start = nfa.after []
  waiting_lt : ∀ id ∈ exploration.waiting, id < exploration.dfa.size
  waits : ∀ id < exploration.dfa.size,
    exploration.dfa.isMarked id = false → id ∈ exploration.waiting
  transitions : ∀ id < exploration.dfa.size, ∀ character,
    (exploration.dfa.target? id character).map exploration.dfa.members =
        nfa.next? (exploration.dfa.members id) character ∨
      exploration.dfa.target? id character = none ∧
        (exploration.dfa.isMarked id = false ∨ (id, character) ∈ pending)
  classified : exploration.dfa.Classifies fun id =>
    exploration.dfa.isMarked id = true

namespace Exploring

variable {pending : List (Nat × Char)} {exploration : Exploration}

theorem exists_after (exploring : Exploring nfa pending exploration)
    {id : Nat} (inside : id < exploration.dfa.size) :
    ∃ word, exploration.dfa.members id = nfa.after word := by
  rcases lt_size_iff.1 inside with ⟨state, found⟩
  rw [members_of_states found]
  exact (exploring.subsets found).after

/-- Characters outside the alphabet lead nowhere. -/
theorem next?_eq_none (only : nfa.ReachesOnlyStates) (word : List Char)
    {character : Char} (foreign : character ∉ nfa.alphabet) :
    nfa.next? (nfa.after word) character = none := by
  have empty : nfa.advance (nfa.after word) character = ∅ := by
    rw [Std.ExtTreeSet.eq_empty_iff_forall_not_mem]
    intro id member
    rw [only.mem_advance_iff fun _ => only.reachable_of_mem_after] at member
    rcases member with ⟨source, sourceMember, target, edge, -⟩
    exact foreign
      (only.mem_alphabet (only.reachable_of_mem_after sourceMember) edge)
  rw [Nfa.next?, empty]
  rfl

theorem start (only : nfa.ReachesOnlyStates) :
    Exploring nfa [] (Exploration.start nfa) := by
  have consistent := isConsistent_empty nfa.alphabet
  have member : nfa.start ∈ nfa.after [] := only.mem_after_iff.2 (.done _)
  have nonempty := Std.ExtTreeSet.ne_empty_of_mem member
  have grown := consistent.addState (nfa.closure [nfa.start])
    ((nfa.closure [nfa.start]).toList.any nfa.isStart)
    ((nfa.closure [nfa.start]).toList.any nfa.isFinal)
  have untouched (id : Nat) (character : Char) :
      (Exploration.start nfa).dfa.target? id character = none := by
    change ((empty nfa.alphabet).addState _ _ _).2.target? id character = none
    rw [target?_addState]
    rfl
  have unmarked (id : Nat) :
      (Exploration.start nfa).dfa.isMarked id = false :=
    (consistent.isMarked_addState _ _ _ _).trans rfl
  constructor
  case consistent =>
    exact grown.transfer (fun _ => rfl) rfl rfl rfl fun _ member => member
  case alphabet =>
    exact (empty nfa.alphabet).alphabet_addState _ _ _
  case subsets =>
    intro id state found
    apply consistent.isSubset_addSubset _ nonempty ⟨[], rfl⟩ found
    intro id state absent
    simp [empty] at absent
  case start_lt =>
    exact consistent.fst_addState_lt _ _ _
  case members_start =>
    exact (consistent.members_addState _ _ _ _).trans (if_pos rfl)
  case waiting_lt =>
    intro id member
    rw [List.mem_singleton.1 member]
    exact consistent.fst_addState_lt _ _ _
  case waits =>
    intro id inside unmarked
    have new := (consistent.lt_size_addState_iff _ _ _ _).1 inside
    exact List.mem_singleton.2 (new.resolve_left (Nat.not_lt_zero _))
  case transitions =>
    intro id inside character
    exact .inr ⟨untouched id character, .inl (unmarked id)⟩
  case classified =>
    have accepting : (Exploration.start nfa).dfa.accepting = [] :=
      (empty nfa.alphabet).accepting_addState _ _ _
    have nonAccepting : (Exploration.start nfa).dfa.nonAccepting = [] :=
      (empty nfa.alphabet).nonAccepting_addState _ _ _
    constructor <;> simp [accepting, nonAccepting, unmarked]

/-- A pair is no longer pending once its transition is right. -/
theorem settle {source : Nat} {character : Char}
    (exploring :
      Exploring nfa ((source, character) :: pending) exploration)
    (settled : (exploration.dfa.target? source character).map
        exploration.dfa.members =
      nfa.next? (exploration.dfa.members source) character) :
    Exploring nfa pending exploration := by
  refine { exploring with transitions := ?_ }
  intro id inside label
  rcases exploring.transitions id inside label with right | ⟨missing, why⟩
  · exact .inl right
  · rcases why with unmarked | member
    · exact .inr ⟨missing, .inl unmarked⟩
    · rcases List.mem_cons.1 member with same | member
      · cases same
        exact .inl settled
      · exact .inr ⟨missing, .inr member⟩

theorem addTransition {source target : Nat} {character : Char}
    (exploring :
      Exploring nfa ((source, character) :: pending) exploration)
    (sourceInside : source < exploration.dfa.size)
    (targetInside : target < exploration.dfa.size)
    (known : character ∈ nfa.alphabet)
    (right : nfa.next? (exploration.dfa.members source) character =
      some (exploration.dfa.members target)) :
    Exploring nfa pending
      ⟨exploration.dfa.addTransition source character target,
        exploration.waiting⟩ := by
  have consistent := exploring.consistent.addTransition sourceInside
    targetInside (exploring.alphabet ▸ known)
  have connected : Exploring nfa ((source, character) :: pending)
      ⟨exploration.dfa.addTransition source character target,
        exploration.waiting⟩ := by
    refine { exploring with
      consistent := consistent
      transitions := ?_
      classified := exploring.classified.transfer rfl rfl (fun _ => .rfl)
        fun _ _ => rfl }
    intro id inside label
    rw [target?_addTransition]
    split
    · next same =>
        rcases same with ⟨rfl, rfl⟩
        exact .inl right.symm
    · exact exploring.transitions id inside label
  apply connected.settle
  rw [target?_addTransition, if_pos ⟨rfl, rfl⟩]
  exact right.symm

/-- The state for a set that has been reached waits unless it has been dealt
with. -/
theorem addSubset {members : StateSet}
    (exploring : Exploring nfa pending exploration)
    (nonempty : members ≠ ∅) (after : ∃ word, members = nfa.after word) :
    Exploring nfa pending
      ⟨(exploration.dfa.addSubset nfa members).2,
        if (exploration.dfa.addSubset nfa members).2.isMarked
            (exploration.dfa.addSubset nfa members).1 then
          exploration.waiting
        else
          (exploration.dfa.addSubset nfa members).1 ::
            exploration.waiting⟩ := by
  have consistent := exploring.consistent
  have subsets {id : Nat} {state : State}
      (found : (exploration.dfa.addSubset nfa members).2.states[id]? =
        some state) : state.IsSubset nfa :=
    consistent.isSubset_addSubset exploring.subsets nonempty after found
  unfold Dfa.addSubset at subsets ⊢
  generalize members.toList.any nfa.isStart = isStart at subsets ⊢
  generalize members.toList.any nfa.isFinal = isFinal at subsets ⊢
  have inside_iff := consistent.lt_size_addState_iff members isStart isFinal
  have kept {id : Nat} (inside : id < exploration.dfa.size) :=
    consistent.members_addState_of_lt members isStart isFinal inside
  constructor
  case consistent =>
    exact consistent.addState members isStart isFinal
  case alphabet =>
    rw [alphabet_addState]
    exact exploring.alphabet
  case subsets =>
    exact subsets
  case start_lt =>
    rw [start_addState, inside_iff]
    exact .inl exploring.start_lt
  case members_start =>
    rw [start_addState, kept exploring.start_lt]
    exact exploring.members_start
  case waiting_lt =>
    intro id member
    rw [inside_iff]
    split at member
    · exact .inl (exploring.waiting_lt id member)
    · rcases List.mem_cons.1 member with new | member
      · exact .inr new
      · exact .inl (exploring.waiting_lt id member)
  case waits =>
    intro id inside unmarked
    rcases inside_iff id |>.1 inside with old | rfl
    · rw [consistent.isMarked_addState] at unmarked
      have waits := exploring.waits id old unmarked
      split
      · exact waits
      · exact List.mem_cons_of_mem _ waits
    · rw [unmarked]
      exact List.mem_cons_self
  case transitions =>
    intro id inside character
    have mark := consistent.isMarked_addState members isStart isFinal id
    dsimp only
    rw [mark, target?_addState, consistent.map_members_addState]
    by_cases old : id < exploration.dfa.size
    · rw [kept old]
      exact exploring.transitions id old character
    · refine .inr ⟨?_, .inl ?_⟩
      · rw [Option.eq_none_iff_forall_ne_some]
        intro target found
        exact old (consistent.lt_of_target found).1
      · rw [← Bool.not_eq_true]
        exact fun marked => old (lt_size_of_any marked)
  case classified =>
    refine exploring.classified.transfer (accepting_addState _ _ _)
      (nonAccepting_addState _ _ _) (fun id => ?_) fun id marked => ?_
    · rw [consistent.isMarked_addState]
    · -- the flags of an old state are those of its members, before and after
      have inside := lt_size_of_any marked
      rcases lt_size_iff.1 inside with ⟨old, oldFound⟩
      rcases lt_size_iff.1 ((inside_iff id).2 (.inl inside)) with
        ⟨new, newFound⟩
      have same : new.members = old.members := by
        rw [← members_of_states newFound, kept inside,
          members_of_states oldFound]
      simp only [Dfa.isFinal, newFound, oldFound, Option.any_some,
        (subsets newFound).isFinal, (exploring.subsets oldFound).isFinal,
        same]

theorem addTarget {source : Nat} {character : Char}
    (exploring :
      Exploring nfa ((source, character) :: pending) exploration)
    (inside : source < exploration.dfa.size)
    (known : character ∈ nfa.alphabet) :
    Exploring nfa pending
      (exploration.addTarget nfa source character) := by
  rcases exploring.exists_after inside with ⟨word, after⟩
  have next := Nfa.next?.eq_1 nfa (exploration.dfa.members source) character
  by_cases empty :
      (nfa.advance (exploration.dfa.members source) character).isEmpty = true
  · rw [if_pos empty] at next
    rw [Exploration.addTarget_of_isEmpty empty]
    apply exploring.settle
    rcases exploring.transitions source inside character with
      right | ⟨missing, -⟩
    · exact right
    · rw [missing, next]
      rfl
  · rw [if_neg empty] at next
    rw [Exploration.addTarget_of_not_isEmpty empty]
    have consistent := exploring.consistent
    have reached :
        nfa.advance (exploration.dfa.members source) character =
          nfa.after (word ++ [character]) := by
      rw [Nfa.after_append_singleton, after]
    have grown := exploring.addSubset
      (fun equal => empty (Std.ExtTreeSet.isEmpty_iff.2 equal))
      ⟨_, reached⟩
    apply grown.addTransition
    · exact (consistent.lt_size_addSubset_iff nfa _).2 (.inl inside)
    · exact (consistent.lt_size_addSubset_iff nfa _).2 (.inr rfl)
    · exact known
    · dsimp only
      rw [consistent.members_addSubset_of_lt nfa _ inside,
        consistent.members_fst_addSubset]
      exact next

/-- The transitions of one state are added, without marking anything and with
at most one more waiting number for each character. -/
theorem foldl_addTarget {source : Nat} {characters : List Char}
    (exploring :
      Exploring nfa (characters.map fun character => (source, character))
        exploration)
    (inside : source < exploration.dfa.size)
    (known : ∀ character ∈ characters, character ∈ nfa.alphabet) :
    Exploring nfa []
        (characters.foldl (Exploration.addTarget nfa source) exploration) ∧
      (∀ id, (characters.foldl (Exploration.addTarget nfa source)
          exploration).dfa.isMarked id = exploration.dfa.isMarked id) ∧
      (characters.foldl (Exploration.addTarget nfa source)
          exploration).waiting.length ≤
        exploration.waiting.length + characters.length := by
  induction characters generalizing exploration with
  | nil => exact ⟨exploring, fun _ => rfl, Nat.le_refl _⟩
  | cons character rest added =>
      have consistent := exploring.consistent
      rcases List.forall_mem_cons.1 known with ⟨first, others⟩
      rcases added (exploring.addTarget inside first)
        (Exploration.lt_size_addTarget consistent inside) others with
        ⟨explored, marks, length⟩
      rw [List.foldl_cons]
      refine ⟨explored, ?_, ?_⟩
      · intro id
        rw [marks, Exploration.isMarked_addTarget consistent]
      · have one :
            (Exploration.addTarget nfa source exploration
              character).waiting.length ≤ exploration.waiting.length + 1 :=
          Exploration.length_waiting_addTarget_le
        rw [List.length_cons]
        omega

/-- A waiting state is marked; all its transitions are pending then. -/
theorem mark {dfa : Dfa} {id : Nat} {waiting : List Nat}
    (only : nfa.ReachesOnlyStates)
    (exploring : Exploring nfa [] ⟨dfa, id :: waiting⟩) :
    Exploring nfa (nfa.alphabet.map fun character => (id, character))
      ⟨(dfa.mark id).classify id, waiting⟩ := by
  have inside : id < dfa.size := exploring.waiting_lt id List.mem_cons_self
  have consistent := (exploring.consistent.mark id).classify id
  have marks := dfa.isMarked_mark inside
  have kept : (dfa.mark id).Classifies fun other =>
      dfa.isMarked other = true :=
    exploring.classified.transfer rfl rfl (fun _ => .rfl)
      fun other _ => dfa.isFinal_mark id other
  have recorded := kept.classify id
  rcases (dfa.mark id).exists_classify_eq id with
    ⟨accepting, nonAccepting, equal⟩
  rw [equal] at consistent recorded ⊢
  have size := dfa.size_mark id
  have members := dfa.members_mark id
  constructor
  case consistent =>
    exact consistent
  case alphabet =>
    exact exploring.alphabet
  case subsets =>
    intro other state found
    replace found : (dfa.mark id).states[other]? = some state := found
    rw [states_mark, Option.map_eq_some_iff] at found
    rcases found with ⟨old, found, rfl⟩
    have subset := exploring.subsets found
    split
    · exact ⟨subset.isStart, subset.isFinal, subset.nonempty, subset.after⟩
    · exact subset
  case start_lt =>
    exact size ▸ exploring.start_lt
  case members_start =>
    exact (members dfa.start).trans exploring.members_start
  case waiting_lt =>
    intro other member
    exact size ▸ exploring.waiting_lt other (List.mem_cons_of_mem _ member)
  case waits =>
    intro other otherInside unmarked
    replace unmarked : ¬(dfa.mark id).isMarked other = true :=
      Bool.not_eq_true _ ▸ unmarked
    rw [marks, not_or, Bool.not_eq_true] at unmarked
    have waits := exploring.waits other (size ▸ otherInside) unmarked.2
    exact (List.mem_cons.1 waits).resolve_left unmarked.1
  case transitions =>
    intro other otherInside character
    change (dfa.target? other character).map (dfa.mark id).members =
        nfa.next? ((dfa.mark id).members other) character ∨
      dfa.target? other character = none ∧
        ((dfa.mark id).isMarked other = false ∨ _)
    rw [funext members]
    rcases exploring.transitions other (size ▸ otherInside) character with
      right | ⟨missing, unmarked | absent⟩
    · exact .inl right
    · by_cases same : other = id
      · subst same
        by_cases known : character ∈ nfa.alphabet
        · exact .inr ⟨missing, .inr (List.mem_map_of_mem known)⟩
        · rcases exploring.exists_after inside with ⟨word, after⟩
          rw [missing, after, next?_eq_none only word known]
          exact .inl rfl
      · refine .inr ⟨missing, .inl ?_⟩
        rw [← Bool.not_eq_true, marks, not_or, Bool.not_eq_true]
        exact ⟨same, unmarked⟩
    · exact nomatch absent
  case classified =>
    exact recorded.transfer rfl rfl (fun other => marks other) fun _ _ => rfl

end Exploring

/-! ## Rounds -/

namespace Exploration

variable {exploration : Exploration}

/-- The states that have been dealt with. -/
def marked (exploration : Exploration) : Finset Nat :=
  (Finset.range exploration.dfa.size).filter fun id =>
    exploration.dfa.isMarked id = true

theorem mem_marked_iff {id : Nat} :
    id ∈ exploration.marked ↔ exploration.dfa.isMarked id = true := by
  rw [marked, Finset.mem_filter, Finset.mem_range]
  constructor
  · exact And.right
  · intro isMarked
    exact ⟨lt_size_of_any isMarked, isMarked⟩

/-- The numbers that wait, and all that can come to wait when the sets that
are not yet dealt with are. -/
def potential (nfa : Nfa) (exploration : Exploration) : Nat :=
  exploration.waiting.length +
    (2 ^ nfa.size - exploration.marked.card) * nfa.alphabet.length

end Exploration

namespace Exploring

variable {pending : List (Nat × Char)} {exploration : Exploration}

/-- There are no more states than subsets. -/
theorem size_le (only : nfa.ReachesOnlyStates)
    (exploring : Exploring nfa pending exploration) :
    exploration.dfa.size ≤ 2 ^ nfa.size := by
  let subset (id : Nat) : Finset StateId :=
    (exploration.dfa.members id).toList.toFinset
  have injective : Set.InjOn subset (Finset.range exploration.dfa.size) := by
    intro id inside other otherInside same
    apply exploring.consistent.eq_of_members_eq
      (Finset.mem_range.1 inside) (Finset.mem_range.1 otherInside)
    apply Std.ExtTreeSet.ext_mem
    intro state
    have member := Finset.ext_iff.1 same state
    simpa [subset] using member
  have inside : ∀ id ∈ Finset.range exploration.dfa.size,
      subset id ∈ nfa.ids.toFinset.powerset := by
    intro id inside
    rcases exploring.exists_after (Finset.mem_range.1 inside) with
      ⟨word, after⟩
    rw [Finset.mem_powerset]
    intro state member
    simp only [subset, after, List.mem_toFinset, Std.ExtTreeSet.mem_toList]
      at member
    rw [List.mem_toFinset, Nfa.mem_ids_iff]
    exact only.contains_of_mem_after member
  have bound := Finset.card_le_card_of_injOn subset inside injective
  rw [Finset.card_range, Finset.card_powerset, Nfa.ids,
    List.toFinset_card_of_nodup List.nodup_range', List.length_range']
    at bound
  exact bound

/-- A number that waits again is passed over. -/
theorem skip {dfa : Dfa} {id : Nat} {waiting : List Nat}
    (exploring : Exploring nfa [] ⟨dfa, id :: waiting⟩)
    (marked : dfa.isMarked id = true) : Exploring nfa [] ⟨dfa, waiting⟩ where
  consistent := exploring.consistent
  alphabet := exploring.alphabet
  subsets := exploring.subsets
  start_lt := exploring.start_lt
  members_start := exploring.members_start
  waiting_lt other member :=
    exploring.waiting_lt other (List.mem_cons_of_mem _ member)
  waits := by
    intro other inside unmarked
    have waits := exploring.waits other inside unmarked
    apply (List.mem_cons.1 waits).resolve_left
    rintro rfl
    exact absurd marked (Bool.not_eq_true _ ▸ unmarked)
  transitions := exploring.transitions
  classified := exploring.classified

/-- Dealing with a state keeps the invariant, marks this state only and lets
at most one number wait for each character. -/
theorem expand {dfa : Dfa} {id : Nat} {waiting : List Nat}
    (only : nfa.ReachesOnlyStates)
    (exploring : Exploring nfa [] ⟨dfa, id :: waiting⟩) :
    Exploring nfa [] (Exploration.expand nfa id ⟨dfa, waiting⟩) ∧
      (Exploration.expand nfa id ⟨dfa, waiting⟩).marked =
        insert id (Exploration.marked ⟨dfa, id :: waiting⟩) ∧
      (Exploration.expand nfa id ⟨dfa, waiting⟩).waiting.length ≤
        waiting.length + nfa.alphabet.length := by
  have inside : id < dfa.size := exploring.waiting_lt id List.mem_cons_self
  have marking := exploring.mark only
  have alphabet := marking.alphabet
  have marked : ∀ other, ((dfa.mark id).classify id).isMarked other = true ↔
      other = id ∨ dfa.isMarked other = true := by
    rcases (dfa.mark id).exists_classify_eq id with ⟨_, _, equal⟩
    rw [equal]
    exact dfa.isMarked_mark inside
  have still : id < ((dfa.mark id).classify id).size :=
    lt_size_of_any ((marked id).2 (.inl rfl))
  rcases marking.foldl_addTarget still fun _ member => member with
    ⟨explored, marks, length⟩
  rw [Exploration.expand]
  dsimp only at alphabet ⊢
  rw [alphabet]
  refine ⟨explored, ?_, length⟩
  ext other
  rw [Exploration.mem_marked_iff, marks, Finset.mem_insert,
    Exploration.mem_marked_iff]
  exact marked other

/-- A round keeps the invariant and takes something off the potential. -/
theorem step (only : nfa.ReachesOnlyStates)
    (exploring : Exploring nfa [] exploration)
    (occupied : exploration.waiting ≠ []) :
    Exploring nfa [] (exploration.step nfa) ∧
      (exploration.step nfa).potential nfa < exploration.potential nfa := by
  rcases exploration with ⟨dfa, _ | ⟨id, waiting⟩⟩
  · exact absurd rfl occupied
  rw [Exploration.step]
  dsimp only
  split
  · next marked =>
      refine ⟨exploring.skip marked, ?_⟩
      exact Nat.add_lt_add_right (Nat.lt_succ_self _) _
  · next unmarked =>
      rcases exploring.expand only with ⟨explored, marked, length⟩
      refine ⟨explored, ?_⟩
      have new : id ∉ Exploration.marked ⟨dfa, id :: waiting⟩ :=
        fun member => unmarked (Exploration.mem_marked_iff.1 member)
      have card := Finset.card_insert_of_notMem new
      rw [← marked] at card
      have bound : (Exploration.expand nfa id ⟨dfa, waiting⟩).marked.card ≤
          2 ^ nfa.size := by
        refine le_trans ?_ (explored.size_le only)
        exact (Finset.card_filter_le _ _).trans_eq (Finset.card_range _)
      -- one set fewer is left, which pays for all numbers that came to wait
      rcases Nat.exists_eq_add_of_le (card ▸ bound) with ⟨left, total⟩
      have before : 2 ^ nfa.size -
          (Exploration.marked ⟨dfa, id :: waiting⟩).card = left + 1 := by
        omega
      have after : 2 ^ nfa.size -
          (Exploration.expand nfa id ⟨dfa, waiting⟩).marked.card = left := by
        omega
      rw [Exploration.potential, Exploration.potential, before, after,
        Nat.add_one_mul, List.length_cons]
      omega

theorem run (only : nfa.ReachesOnlyStates) {rounds : Nat}
    (exploring : Exploring nfa [] exploration)
    (enough : exploration.potential nfa ≤ rounds) :
    Exploring nfa [] (exploration.run nfa rounds) ∧
      (exploration.run nfa rounds).waiting = [] := by
  induction rounds generalizing exploration with
  | zero =>
      refine ⟨exploring, List.eq_nil_of_length_eq_zero ?_⟩
      rw [Exploration.potential] at enough
      exact Nat.eq_zero_of_add_eq_zero_right (Nat.le_zero.1 enough)
  | succ rounds finished =>
      rw [Exploration.run]
      split
      · next none_waits => exact ⟨exploring, List.isEmpty_iff.1 none_waits⟩
      · next waits =>
          have occupied : exploration.waiting ≠ [] :=
            fun none_waits => waits (List.isEmpty_iff.2 none_waits)
          rcases exploring.step only occupied with ⟨stepped, less⟩
          exact finished stepped (by omega)

/-- The number of rounds suffices. -/
theorem run_start (only : nfa.ReachesOnlyStates) :
    Exploring nfa [] (Exploration.run nfa (Exploration.rounds nfa)
        (Exploration.start nfa)) ∧
      (Exploration.run nfa (Exploration.rounds nfa)
        (Exploration.start nfa)).waiting = [] := by
  apply (Exploring.start only).run only
  rw [Exploration.potential, Exploration.rounds, Nat.add_comm]
  apply Nat.add_le_add_right
  exact Nat.mul_le_mul_right _ (Nat.sub_le _ _)

/-- When nothing waits, all states have been dealt with. -/
theorem isMarked_iff (exploring : Exploring nfa pending exploration)
    (none_waits : exploration.waiting = []) {id : Nat} :
    exploration.dfa.isMarked id = true ↔ id < exploration.dfa.size := by
  refine ⟨lt_size_of_any, fun inside => ?_⟩
  by_contra unmarked
  have waits := exploring.waits id inside (Bool.not_eq_true _ ▸ unmarked)
  rw [none_waits] at waits
  exact nomatch waits

end Exploring

end Dfa

end PatternAutomata
