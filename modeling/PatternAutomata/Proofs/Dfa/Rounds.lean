import Mathlib.Logic.Function.Iterate
import PatternAutomata.Proofs.Dfa.CheckedSubsets

/-!
# The rounds of an exploration

A round takes one number off the stack.  A state may wait several times, and
only the first time it is taken off it is dealt with: the states that have been
dealt with are the marked ones, each once.  A state that is not marked waits
after every round, so when nothing waits any more all states have been dealt
with.  The stack is empty after finitely many rounds, since there are no more
states than sets.
-/

namespace PatternAutomata.Dfa

variable {nfa : Nfa} {dfa : Dfa}

namespace Exploration

/-- The exploration after a number of rounds. -/
def afterRounds (nfa : Nfa) (rounds : Nat) : Exploration :=
  (step nfa)^[rounds] (start nfa)

/-- The state that the next round deals with, if it deals with one. -/
def next? (exploration : Exploration) : Option Nat :=
  exploration.waiting.head?.filter fun id => !exploration.dfa.isMarked id

/-- The states that a number of rounds deals with, in order. -/
def dealtWith (nfa : Nfa) (rounds : Nat) : List Nat :=
  (List.range rounds).filterMap fun round => (afterRounds nfa round).next?

variable {exploration : Exploration}

theorem next?_cons (dfa : Dfa) (id : Nat) (waiting : List Nat) :
    next? ⟨dfa, id :: waiting⟩ =
      if dfa.isMarked id then none else some id := by
  cases marked : dfa.isMarked id <;> simp [next?, marked]

theorem step_of_waiting_nil (none_waits : exploration.waiting = []) :
    exploration.step nfa = exploration := by
  rw [step, none_waits]

/-- Running is going through rounds. -/
theorem run_eq_iterate (rounds : Nat) :
    exploration.run nfa rounds = (step nfa)^[rounds] exploration := by
  induction rounds generalizing exploration with
  | zero => rfl
  | succ rounds same =>
      rw [run]
      split
      · next none_waits =>
          symm
          exact Function.iterate_fixed
            (step_of_waiting_nil (List.isEmpty_iff.1 none_waits)) _
      · rw [same, Function.iterate_succ_apply]

theorem afterRounds_succ (rounds : Nat) :
    afterRounds nfa (rounds + 1) = (afterRounds nfa rounds).step nfa :=
  Function.iterate_succ_apply' _ _ _

theorem dealtWith_succ (rounds : Nat) :
    dealtWith nfa (rounds + 1) =
      dealtWith nfa rounds ++ (afterRounds nfa rounds).next?.toList := by
  rw [dealtWith, List.range_succ, List.filterMap_append]
  cases found : (afterRounds nfa rounds).next? <;> simp [dealtWith, found]

theorem isMarked_start (nfa : Nfa) (id : Nat) :
    (start nfa).dfa.isMarked id = false :=
  (isConsistent_empty nfa.alphabet).isMarked_addState _ _ _ id

end Exploration

namespace Exploring

variable {exploration : Exploration}

/-- A round keeps the invariant, also when nothing waits. -/
theorem step_any (only : nfa.ReachesOnlyStates)
    (exploring : Exploring nfa [] exploration) :
    Exploring nfa [] (exploration.step nfa) := by
  by_cases none_waits : exploration.waiting = []
  · rw [Exploration.step_of_waiting_nil none_waits]
    exact exploring
  · exact (exploring.step only none_waits).1

/-- A round marks the state that it deals with, and no other. -/
theorem isMarked_step (only : nfa.ReachesOnlyStates)
    (exploring : Exploring nfa [] exploration) (id : Nat) :
    (exploration.step nfa).dfa.isMarked id = true ↔
      exploration.dfa.isMarked id = true ∨ exploration.next? = some id := by
  rcases exploration with ⟨dfa, _ | ⟨next, waiting⟩⟩
  · simp [Exploration.step, Exploration.next?]
  · rw [Exploration.step, Exploration.next?_cons]
    dsimp only
    split
    · simp
    · rcases exploring.expand only with ⟨-, marked, -⟩
      rw [← Exploration.mem_marked_iff, marked, Finset.mem_insert,
        Exploration.mem_marked_iff, Option.some.injEq, or_comm,
        eq_comm (a := id)]

theorem afterRounds (only : nfa.ReachesOnlyStates) (rounds : Nat) :
    Exploring nfa [] (Exploration.afterRounds nfa rounds) := by
  induction rounds with
  | zero => exact Exploring.start only
  | succ rounds exploring =>
      rw [Exploration.afterRounds_succ]
      exact exploring.step_any only

end Exploring

namespace Exploration

/-- The states that have been dealt with are the marked ones, each once. -/
theorem dealtWith_spec (only : nfa.ReachesOnlyStates) (rounds : Nat) :
    (dealtWith nfa rounds).Nodup ∧ ∀ id, id ∈ dealtWith nfa rounds ↔
      (afterRounds nfa rounds).dfa.isMarked id = true := by
  induction rounds with
  | zero =>
      refine ⟨List.nodup_nil, fun id => ?_⟩
      rw [afterRounds, Function.iterate_zero, id_eq, isMarked_start]
      simp [dealtWith]
  | succ rounds dealt =>
      rcases dealt with ⟨nodup, mem_iff⟩
      have marks (id : Nat) :=
        (Exploring.afterRounds only rounds).isMarked_step only id
      rw [dealtWith_succ, afterRounds_succ]
      cases found : (afterRounds nfa rounds).next? with
      | none =>
          rw [found] at marks
          simpa [marks, mem_iff] using nodup
      | some next =>
          -- only a state that is not marked yet is dealt with
          have unmarked := (Option.filter_eq_some_iff.1 found).2
          rw [Bool.not_eq_true'] at unmarked
          rw [found] at marks
          refine ⟨List.nodup_append.2 ⟨nodup, List.nodup_singleton next, ?_⟩,
            fun id => ?_⟩
          · rintro old member _ new rfl
            rw [List.mem_singleton.1 new, mem_iff, unmarked] at member
            cases member
          · rw [marks, List.mem_append, mem_iff, Option.toList_some,
              List.mem_singleton, Option.some.injEq, eq_comm (a := id)]

/-- The automaton of subsets is what the rounds come to. -/
theorem ofNfa_eq (occupied : nfa.isEmpty = false) :
    ofNfa nfa = (afterRounds nfa (rounds nfa)).dfa := by
  rw [ofNfa, occupied, if_neg Bool.false_ne_true, run_eq_iterate]
  rfl

end Exploration

/-! ## The end of the exploration -/

/-- Every set has been dealt with, and every transition has been found. -/
structure IsExplored (dfa : Dfa) (nfa : Nfa) : Prop where
  /-- All states are marked. -/
  marked : ∀ id < dfa.size, dfa.isMarked id = true
  /-- A state is recorded once, in one of the two classes, and nothing else
  is. -/
  recorded : ∀ id, (dfa.accepting ++ dfa.nonAccepting).count id =
    if id < dfa.size then 1 else 0
  /-- Every state is reached from the first one. -/
  reached : ∀ id < dfa.size, ∃ word, dfa.run? 0 word = some id
  /-- There is a transition when the set that it has to lead to is not
  empty. -/
  exists_target_iff : ∀ id < dfa.size, ∀ character ∈ dfa.alphabet,
    (∃ target, dfa.target? id character = some target) ↔
      nfa.closure (nfa.edge (dfa.members id) character).toList ≠ ∅
  /-- It leads to the one state that has this set as its members. -/
  target_iff : ∀ id < dfa.size, ∀ character ∈ dfa.alphabet, ∀ target,
    dfa.target? id character = some target → ∀ other,
      other = target ↔ other < dfa.size ∧ dfa.members other =
        nfa.closure (nfa.edge (dfa.members id) character).toList

namespace Classifies

variable {recorded : Nat → Prop}

theorem count_eq_one (classifies : dfa.Classifies recorded) {id : Nat}
    (known : recorded id) :
    (dfa.accepting ++ dfa.nonAccepting).count id = 1 := by
  rw [List.count_append, classifies.nodup_accepting.count,
    classifies.nodup_nonAccepting.count]
  simp only [classifies.mem_accepting_iff, classifies.mem_nonAccepting_iff,
    known, true_and]
  cases dfa.isFinal id <;> rfl

theorem count_eq_zero (classifies : dfa.Classifies recorded) {id : Nat}
    (unknown : ¬recorded id) :
    (dfa.accepting ++ dfa.nonAccepting).count id = 0 := by
  rw [List.count_eq_zero, List.mem_append, classifies.mem_accepting_iff,
    classifies.mem_nonAccepting_iff]
  simp [unknown]

end Classifies

theorem isExplored_empty (alphabet : List Char) (nfa : Nfa) :
    (empty alphabet).IsExplored nfa := by
  have stateless {id : Nat} (inside : id < (empty alphabet).size) : False :=
    Nat.not_lt_zero id inside
  constructor
  case recorded => exact fun _ => rfl
  all_goals exact fun _ inside => (stateless inside).elim

theorem IsSubsetAutomaton.isExplored (subsets : dfa.IsSubsetAutomaton nfa)
    (only : nfa.ReachesOnlyStates) (start : dfa.start = 0)
    (marked : ∀ id < dfa.size, dfa.isMarked id = true) :
    dfa.IsExplored nfa := by
  have consistent := subsets.consistent
  constructor
  case marked => exact marked
  case recorded =>
    intro id
    split
    · next inside => exact subsets.classified.count_eq_one inside
    · next outside => exact subsets.classified.count_eq_zero outside
  case reached =>
    intro id inside
    rw [← start]
    exact subsets.exists_run?_start only inside
  case exists_target_iff =>
    intro id inside character _
    have leads := subsets.transitions id inside character
    rw [Nfa.next?, Nfa.advance] at leads
    rw [ne_eq, ← Std.ExtTreeSet.isEmpty_iff]
    split at leads
    · next none_left =>
        rw [Option.map_eq_none_iff] at leads
        simp [leads, none_left]
    · next some_left =>
        rcases Option.map_eq_some_iff.1 leads with ⟨target, found, -⟩
        exact ⟨fun _ => some_left, fun _ => ⟨target, found⟩⟩
  case target_iff =>
    intro id inside character _ target found other
    have leads := subsets.transitions id inside character
    rw [found, Option.map_some, Nfa.next?, Nfa.advance] at leads
    split at leads
    · cases leads
    · have targetInside := (consistent.lt_of_target found).2
      rw [← Option.some.inj leads]
      constructor
      · rintro rfl
        exact ⟨targetInside, rfl⟩
      · rintro ⟨otherInside, same⟩
        exact consistent.eq_of_members_eq otherInside targetInside same

/-- The exploration ends with an automaton.  Until then the states that are not
marked wait, and in the end every state has been dealt with once. -/
theorem exploration_ends (nfa : Nfa)
    (only : nfa.isEmpty = true ∨ nfa.ReachesOnlyStates) :
    Checked.ofNfa nfa = .ok (ofNfa nfa) ∧ (ofNfa nfa).IsExplored nfa ∧
      (nfa.isEmpty = false →
        (∀ rounds,
          let exploration := Exploration.afterRounds nfa rounds
          ∀ id < exploration.dfa.size,
            exploration.dfa.isMarked id = false →
              id ∈ exploration.waiting) ∧
        ∃ rounds ≤ Exploration.rounds nfa,
          (Exploration.afterRounds nfa rounds).waiting = [] ∧
          (Exploration.afterRounds nfa rounds).dfa = ofNfa nfa ∧
          (Exploration.dealtWith nfa rounds).Perm
            (List.range (ofNfa nfa).size)) := by
  have returns : Checked.ofNfa nfa = .ok (ofNfa nfa) := by
    rw [Checked.ofNfa_eq, Nfa.Checked.determinize_eq_ok only]
    rfl
  refine ⟨returns, ?_⟩
  rcases only with stateless | only
  · rw [ofNfa, if_pos stateless, stateless]
    exact ⟨isExplored_empty _ nfa, fun occupied => by cases occupied⟩
  · have occupied := only.isEmpty_eq_false
    rcases Exploring.run_start only with ⟨explored, none_waits⟩
    have ends := Exploration.ofNfa_eq occupied
    rw [Exploration.run_eq_iterate] at explored none_waits
    change Exploring nfa [] (Exploration.afterRounds nfa _) at explored
    change (Exploration.afterRounds nfa _).waiting = [] at none_waits
    have marked (id : Nat) : (ofNfa nfa).isMarked id = true ↔
        id < (ofNfa nfa).size := by
      rw [ends]
      exact explored.isMarked_iff none_waits
    refine ⟨(isSubsetAutomaton_ofNfa only).isExplored only (start_ofNfa nfa)
      fun id => (marked id).2, fun _ => ⟨fun rounds =>
        (Exploring.afterRounds only rounds).waits, Exploration.rounds nfa,
        Nat.le_refl _, none_waits, ends.symm, ?_⟩⟩
    rcases Exploration.dealtWith_spec only (Exploration.rounds nfa) with
      ⟨nodup, mem_iff⟩
    rw [List.perm_ext_iff_of_nodup nodup List.nodup_range]
    intro id
    rw [mem_iff, ← ends, marked, List.mem_range]

/-- The words `a` and `ba` lead to the same state, which comes to wait for
each of them. -/
def twoEntries : Nfa :=
  (((Nfa.empty.addState 0).addState 0).addState 0).addEdges
    [⟨0, .char 'a', 1⟩, ⟨0, .char 'b', 2⟩, ⟨2, .char 'a', 1⟩]

/-- A state waits twice and is dealt with once. -/
theorem exploration_ends_twoEntries :
    twoEntries.ReachesOnlyStates ∧
      (Exploration.afterRounds twoEntries 2).waiting = [1, 1] ∧
      (ofNfa twoEntries).size = 3 ∧
      Checked.ofNfa twoEntries = .ok (ofNfa twoEntries) ∧
      (ofNfa twoEntries).IsExplored twoEntries ∧
      ∃ rounds, (Exploration.afterRounds twoEntries rounds).waiting = [] ∧
        (Exploration.dealtWith twoEntries rounds).Perm [0, 1, 2] := by
  have only : twoEntries.ReachesOnlyStates := by
    rw [Nfa.reachesOnlyStates_iff (by decide +kernel)]
    decide +kernel
  have size : (ofNfa twoEntries).size = 3 := by decide +kernel
  rcases exploration_ends twoEntries (.inr only) with
    ⟨returns, explored, ends⟩
  rcases (ends only.isEmpty_eq_false).2 with
    ⟨rounds, -, none_waits, -, dealtWith⟩
  rw [size] at dealtWith
  exact ⟨only, by decide +kernel, size, returns, explored, rounds, none_waits,
    dealtWith⟩

end PatternAutomata.Dfa
