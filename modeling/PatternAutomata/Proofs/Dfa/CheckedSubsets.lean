import PatternAutomata.Dfa.Checked
import PatternAutomata.Proofs.Dfa.Subsets
import PatternAutomata.Proofs.Nfa.Discovery

/-!
# Checked exploration

Exploring the subsets of an automaton looks up members of the sets that a
simulation holds and states that have been added before.  If only states can be
reached, no look-up fails, and the checked exploration finds the automaton of
subsets.
-/

namespace PatternAutomata.Dfa

/-! ## Loops

A loop whose steps refuse nothing has the result of the total loop.
-/

section Loops

variable {α β ε : Type} {list : List α}

theorem mapM_eq_ok {step : α → Except ε β} {total : α → β}
    (each : ∀ entry ∈ list, step entry = .ok (total entry)) :
    list.mapM step = .ok (list.map total) := by
  induction list with
  | nil => rfl
  | cons entry list mapped =>
      rcases List.forall_mem_cons.1 each with ⟨first, others⟩
      rw [List.mapM_cons, first, mapped others]
      rfl

/-- The steps may rely on what holds before each of them. -/
theorem foldlM_eq_ok {step : β → α → Except ε β} {total : β → α → β}
    (holds : β → Prop) {start : β}
    (each : ∀ current, holds current → ∀ entry ∈ list,
      step current entry = .ok (total current entry) ∧
        holds (total current entry))
    (begins : holds start) :
    list.foldlM step start = .ok (list.foldl total start) := by
  induction list generalizing start with
  | nil => rfl
  | cons entry list folded =>
      rcases each start begins entry List.mem_cons_self with ⟨first, kept⟩
      rw [List.foldlM_cons, List.foldl_cons, first]
      exact folded (fun current known other member =>
        each current known other (List.mem_cons_of_mem _ member)) kept

theorem anyM_eq_ok {step : α → Except ε Bool} {total : α → Bool}
    (each : ∀ entry ∈ list, step entry = .ok (total entry)) :
    list.anyM step = .ok (list.any total) := by
  induction list with
  | nil => rfl
  | cons entry list searched =>
      rcases List.forall_mem_cons.1 each with ⟨first, others⟩
      rw [List.anyM_cons, first, List.any_cons, searched others]
      cases total entry <;> rfl

theorem findSomeM?_eq_ok {step : α → Except ε (Option β)}
    {total : α → Option β}
    (each : ∀ entry ∈ list, step entry = .ok (total entry)) :
    list.findSomeM? step = .ok (list.findSome? total) := by
  induction list with
  | nil => rfl
  | cons entry list searched =>
      rcases List.forall_mem_cons.1 each with ⟨first, others⟩
      rw [List.findSomeM?_cons, first, List.findSome?_cons, searched others]
      cases total entry <;> rfl

end Loops

variable {nfa : Nfa} {dfa : Dfa}

theorem Exploration.members_addTarget_of_lt {exploration : Exploration}
    {source : Nat} {character : Char}
    (consistent : exploration.dfa.IsConsistent) {id : Nat}
    (inside : id < exploration.dfa.size) :
    (exploration.addTarget nfa source character).dfa.members id =
      exploration.dfa.members id := by
  by_cases empty :
      (nfa.advance (exploration.dfa.members source) character).isEmpty = true
  · rw [addTarget_of_isEmpty empty]
  · rw [addTarget_of_not_isEmpty empty]
    exact consistent.members_addSubset_of_lt nfa _ inside

namespace Checked

/-! ## Tables -/

theorem state_eq_ok {id : Nat} {found : State}
    (lookup : dfa.states[id]? = some found) : state dfa id = .ok found := by
  rw [state, Dfa.state, lookup]
  rfl

theorem addState_eq_ok (consistent : dfa.IsConsistent) (members : StateSet)
    (isStart isFinal : Bool) :
    addState members isStart isFinal dfa =
      .ok (dfa.addState members isStart isFinal) := by
  rw [addState]
  cases known : dfa.idOf? members with
  | none => rfl
  | some id =>
      rcases lt_size_iff.1 (consistent.idOf?_iff.1 known).1 with
        ⟨found, lookup⟩
      dsimp only
      rw [state_eq_ok lookup]
      rfl

theorem addTransition_eq_ok {source target : Nat}
    (sourceInside : source < dfa.size) (targetInside : target < dfa.size)
    (character : Char) :
    addTransition source character target dfa =
      .ok (dfa.addTransition source character target) := by
  rcases lt_size_iff.1 sourceInside with ⟨found, lookup⟩
  rcases lt_size_iff.1 targetInside with ⟨other, otherLookup⟩
  rw [addTransition, state_eq_ok lookup, state_eq_ok otherLookup]
  rfl

theorem classify_eq_ok {id : Nat} (inside : id < dfa.size) :
    classify dfa id = .ok (dfa.classify id) := by
  rcases lt_size_iff.1 inside with ⟨found, lookup⟩
  rw [classify, state_eq_ok lookup]
  rfl

theorem mark_eq_ok {id : Nat} (inside : id < dfa.size) :
    mark dfa id = .ok (dfa.mark id) := by
  rcases lt_size_iff.1 inside with ⟨found, lookup⟩
  rw [mark, state_eq_ok lookup]
  rfl

/-! ## Sets of states -/

theorem anyFlag_eq_ok {flag : Nfa.State → Bool} {ids : List StateId}
    (states : ∀ id ∈ ids, nfa.contains id = true) :
    anyFlag nfa flag ids =
      .ok (ids.any fun id => (nfa.state? id).any flag) := by
  apply anyM_eq_ok
  intro id member
  rcases Option.isSome_iff_exists.1 (states id member) with ⟨found, lookup⟩
  rw [Nfa.Checked.state, lookup]
  rfl

theorem addSubset_eq_ok (consistent : dfa.IsConsistent) {members : StateSet}
    (states : ∀ id ∈ members, nfa.contains id = true) :
    addSubset nfa members dfa = .ok (dfa.addSubset nfa members) := by
  have contained : ∀ id ∈ members.toList, nfa.contains id = true :=
    fun id member => states id (Std.ExtTreeSet.mem_toList.1 member)
  rw [addSubset, anyFlag_eq_ok contained, anyFlag_eq_ok contained]
  exact addState_eq_ok consistent members _ _

theorem lift_ok_bind {α β : Type} (value : α)
    (following : α → Except Refusal β) :
    (liftM (Except.ok value : Except MissingState α) >>= following) =
      following value :=
  rfl

theorem ok_bind {α β : Type} (value : α)
    (following : α → Except Refusal β) :
    (Except.ok value >>= following) = following value :=
  rfl

/-! ## Exploration -/

variable {exploration : Exploration}

/-- The target of a set that a simulation holds is such a set. -/
theorem addTarget_eq_ok {pending : List (Nat × Char)} {source : Nat}
    {character : Char} (only : nfa.ReachesOnlyStates)
    (exploring : Exploring nfa pending exploration)
    (inside : source < exploration.dfa.size) :
    addTarget nfa source (exploration.dfa.members source) exploration
        character =
      .ok (exploration.addTarget nfa source character) := by
  rcases exploring.exists_after inside with ⟨word, after⟩
  have consistent := exploring.consistent
  have states (id : StateId)
      (member : id ∈ nfa.advance (exploration.dfa.members source) character) :
      nfa.contains id = true := by
    rw [after, ← Nfa.after_append_singleton] at member
    exact only.contains_of_mem_after member
  have edge : Nfa.Checked.edge nfa (exploration.dfa.members source)
      character =
        .ok (nfa.edge (exploration.dfa.members source) character) := by
    rw [after]
    exact Nfa.Checked.edge_eq_ok fun id => only.contains_of_mem_after
  have closure : Nfa.Checked.closure nfa
      (nfa.edge (exploration.dfa.members source) character).toList =
        .ok (nfa.advance (exploration.dfa.members source) character) := by
    rw [after, Nfa.Checked.closure_edge_eq_ok only,
      Nfa.after_append_singleton]
  rw [addTarget, edge, lift_ok_bind, closure, lift_ok_bind]
  by_cases empty :
      (nfa.advance (exploration.dfa.members source) character).isEmpty = true
  · rw [Exploration.addTarget_of_isEmpty empty, if_pos empty]
    rfl
  · rw [Exploration.addTarget_of_not_isEmpty empty, if_neg empty,
      addSubset_eq_ok consistent states, ok_bind]
    generalize nfa.advance (exploration.dfa.members source) character = members
    have inside_iff {id : Nat} :
        id < (exploration.dfa.addSubset nfa members).2.size ↔
          id < exploration.dfa.size ∨
            id = (exploration.dfa.addSubset nfa members).1 :=
      consistent.lt_size_addSubset_iff nfa members
    generalize exploration.dfa.addSubset nfa members = added at inside_iff ⊢
    rcases added with ⟨target, grown⟩
    have targetInside : target < grown.size := inside_iff.2 (.inr rfl)
    rcases lt_size_iff.1 targetInside with ⟨found, lookup⟩
    have marked : grown.isMarked target = found.isMarked := by
      rw [Dfa.isMarked, lookup, Option.any_some]
    have looked : state (grown.addTransition source character target) target =
        .ok found := state_eq_ok lookup
    dsimp only
    rw [addTransition_eq_ok (inside_iff.2 (.inl inside)) targetInside, ok_bind,
      looked, marked]
    rfl

/-- Dealing with a state looks up states only. -/
theorem foldlM_addTarget_eq_ok {source : Nat} {sources : StateSet}
    {characters : List Char} (only : nfa.ReachesOnlyStates)
    (exploring : Exploring nfa
      (characters.map fun character => (source, character)) exploration)
    (inside : source < exploration.dfa.size)
    (same : exploration.dfa.members source = sources)
    (known : ∀ character ∈ characters, character ∈ nfa.alphabet) :
    characters.foldlM (addTarget nfa source sources) exploration =
      .ok (characters.foldl (Exploration.addTarget nfa source)
        exploration) := by
  induction characters generalizing exploration with
  | nil => rfl
  | cons character rest added =>
      rcases List.forall_mem_cons.1 known with ⟨first, others⟩
      have consistent := exploring.consistent
      rw [List.foldlM_cons, List.foldl_cons, ← same,
        addTarget_eq_ok only exploring inside, ok_bind, same]
      refine added (exploring.addTarget inside first)
        (Exploration.lt_size_addTarget consistent inside) ?_ others
      rw [Exploration.members_addTarget_of_lt consistent inside, same]

theorem expand_eq_ok {id : Nat} {waiting : List Nat}
    (only : nfa.ReachesOnlyStates)
    (exploring : Exploring nfa [] ⟨dfa, id :: waiting⟩) :
    expand nfa id ⟨dfa, waiting⟩ =
      .ok (Exploration.expand nfa id ⟨dfa, waiting⟩) := by
  have inside : id < dfa.size := exploring.waiting_lt id List.mem_cons_self
  have marking := exploring.mark only
  have alphabet : ((dfa.mark id).classify id).alphabet = nfa.alphabet :=
    marking.alphabet
  have still : id < ((dfa.mark id).classify id).size := by
    rcases (dfa.mark id).exists_classify_eq id with ⟨_, _, equal⟩
    rw [equal]
    exact (dfa.size_mark id).symm ▸ inside
  rcases lt_size_iff.1 still with ⟨found, lookup⟩
  rw [expand, Exploration.expand]
  dsimp only
  rw [mark_eq_ok inside, ok_bind,
    classify_eq_ok ((dfa.size_mark id).symm ▸ inside), ok_bind,
    state_eq_ok lookup, ok_bind, alphabet]
  exact foldlM_addTarget_eq_ok only marking still (members_of_states lookup)
    fun _ member => member

theorem step_eq_ok (only : nfa.ReachesOnlyStates)
    (exploring : Exploring nfa [] exploration) :
    step nfa exploration = .ok (exploration.step nfa) := by
  rcases exploration with ⟨dfa, _ | ⟨id, waiting⟩⟩
  · rfl
  · have inside : id < dfa.size := exploring.waiting_lt id List.mem_cons_self
    rcases lt_size_iff.1 inside with ⟨found, lookup⟩
    have marked : dfa.isMarked id = found.isMarked := by
      rw [Dfa.isMarked, lookup, Option.any_some]
    rw [step, Exploration.step]
    dsimp only
    rw [state_eq_ok lookup, ok_bind, marked]
    split
    · rfl
    · exact expand_eq_ok only exploring

theorem run_eq_ok (only : nfa.ReachesOnlyStates)
    (exploring : Exploring nfa [] exploration) (rounds : Nat) :
    run nfa rounds exploration = .ok (exploration.run nfa rounds) := by
  induction rounds generalizing exploration with
  | zero => rfl
  | succ rounds ran =>
      rw [run, Exploration.run]
      split
      · rfl
      · next waits =>
          rw [step_eq_ok only exploring, ok_bind]
          refine ran (exploring.step only ?_).1
          exact fun none_waits => waits (List.isEmpty_iff.2 none_waits)

theorem start_eq_ok (only : nfa.ReachesOnlyStates) :
    start nfa nfa.alphabet = .ok (Exploration.start nfa) := by
  rw [start, Nfa.Checked.closure_start_eq_ok only, lift_ok_bind,
    addSubset_eq_ok (isConsistent_empty _) fun id =>
      only.contains_of_mem_after]
  rfl

/-- Where only states can be reached, no look-up of the exploration fails. -/
theorem ofNfa_eq_ok (only : nfa.ReachesOnlyStates) :
    ofNfa nfa = .ok (Dfa.ofNfa nfa) := by
  rw [ofNfa, Dfa.ofNfa, Nfa.Checked.alphabet_eq_ok only, lift_ok_bind,
    only.isEmpty_eq_false, if_neg Bool.false_ne_true,
    if_neg Bool.false_ne_true, start_eq_ok only, ok_bind,
    run_eq_ok only (Exploring.start only)]
  rfl

/-- It is enough to look the states up that a breadth first walk visits. -/
theorem ofNfa_eq (nfa : Nfa) :
    ofNfa nfa = (Nfa.Checked.determinize nfa).mapError .missing := by
  rw [Nfa.Checked.determinize]
  cases required : Nfa.Checked.require nfa nfa.breadthFirst with
  | error missing =>
      rw [ofNfa, Nfa.Checked.alphabet_eq, required]
      rfl
  | ok =>
      cases stateless : nfa.isEmpty with
      | true =>
          rw [ofNfa, Nfa.Checked.alphabet_eq, required, stateless]
          change _ = Except.ok (Dfa.ofNfa nfa)
          rw [Dfa.ofNfa, if_pos stateless]
          rfl
      | false =>
          have only : nfa.ReachesOnlyStates := by
            rw [Nfa.reachesOnlyStates_iff stateless]
            exact Nfa.Checked.require_eq_ok_iff.1 required
          rw [ofNfa_eq_ok only]
          rfl

end Checked

end PatternAutomata.Dfa
