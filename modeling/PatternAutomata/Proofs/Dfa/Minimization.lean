import PatternAutomata.Proofs.Dfa.Subsets
import PatternAutomata.Proofs.Dfa.Unions
import PatternAutomata.Proofs.Nfa.Building

/-!
# Minimizing the automaton of subsets

What states of the automaton of subsets do with a word is determined by the
paths that start at their members, and so is what all states do that are alike
to one.  Unions of members are therefore distinct, and minimization keeps runs
and acceptance.
-/

namespace PatternAutomata.Dfa

variable {nfa : Nfa} {dfa : Dfa}

namespace IsSubsetAutomaton

/-- The union of the members of alike states determines what they do. -/
theorem hasDistinctUnions (subsets : dfa.IsSubsetAutomaton nfa)
    (only : nfa.ReachesOnlyStates) : dfa.HasDistinctUnions := by
  have defined (word : List Char) {id : Nat} (inside : id < dfa.size) :
      (dfa.outcome? id word).isSome = true ↔
        ∃ member ∈ dfa.unionMembers id,
          ∃ target, nfa.Path member word target := by
    apply iff_unionMembers _ _ inside
    · intro id inside
      exact subsets.isSome_outcome?_iff only inside
    · intro first second alike
      rw [alike word]
  have accepted (word : List Char) {id : Nat} (inside : id < dfa.size) :
      dfa.outcome? id word = some true ↔
        ∃ member ∈ dfa.unionMembers id,
          ∃ target, nfa.Path member word target ∧
            nfa.isFinal target = true := by
    apply iff_unionMembers _ _ inside
    · intro id inside
      exact subsets.outcome?_eq_some_true_iff only inside
    · intro first second alike
      rw [alike word]
  intro first firstInside second secondInside same word
  apply outcome_ext
  · rw [defined word firstInside, defined word secondInside, same]
  · rw [accepted word firstInside, accepted word secondInside, same]

/-- If any state is flagged as a start, the start state is. -/
theorem hasStart (subsets : dfa.IsSubsetAutomaton nfa)
    (only : nfa.ReachesOnlyStates) (built : nfa.Built) : dfa.HasStart where
  start_lt _ := subsets.start_lt
  isStart_start := by
    intro id isStart
    rcases (subsets.isStart_iff (lt_size_of_any isStart)).1 isStart with
      ⟨state, -, flagged⟩
    rw [subsets.isStart_iff subsets.start_lt, subsets.members_start]
    refine ⟨nfa.start, only.mem_after_iff.2 (.done _), ?_⟩
    rw [← built.eq_start_of_isStart flagged]
    exact flagged

/-- Minimization keeps what the automaton does with every word. -/
theorem outcome?_minimize (subsets : dfa.IsSubsetAutomaton nfa)
    (only : nfa.ReachesOnlyStates) (built : nfa.Built) (word : List Char) :
    dfa.minimize.outcome? dfa.minimize.start word =
      dfa.outcome? dfa.start word :=
  subsets.consistent.outcome?_minimize (subsets.hasDistinctUnions only)
    (subsets.hasStart only built) (Nat.zero_lt_of_lt subsets.start_lt) word

/-- Minimization keeps the accepted words. -/
theorem accepts_minimize (subsets : dfa.IsSubsetAutomaton nfa)
    (only : nfa.ReachesOnlyStates) (built : nfa.Built) (word : List Char) :
    dfa.minimize.accepts word = dfa.accepts word :=
  accepts_eq_of_outcome?_eq (subsets.outcome?_minimize only built word)

end IsSubsetAutomaton

/-! ## Every automaton of subsets -/

theorem minimize_empty (alphabet : List Char) :
    (empty alphabet).minimize = empty [] := by
  have none_left : (empty alphabet).stablePartition = [] := rfl
  rw [minimize, none_left]
  rfl

/-- The minimal automaton of subsets runs through the same words as the one it
is made from, and it accepts the same words. -/
theorem minimize_ofNfa_preserves_runs (nfa : Nfa) (built : nfa.Built)
    (only : nfa.isEmpty = true ∨ nfa.ReachesOnlyStates) :
    Nfa.Checked.determinize nfa = .ok (ofNfa nfa) ∧
      ∀ word,
        ((ofNfa nfa).minimize.run? (ofNfa nfa).minimize.start word).isSome =
            ((ofNfa nfa).run? (ofNfa nfa).start word).isSome ∧
          (ofNfa nfa).minimize.accepts word = (ofNfa nfa).accepts word := by
  refine ⟨Nfa.Checked.determinize_eq_ok only, ?_⟩
  intro word
  rcases only with stateless | only
  · rw [ofNfa, if_pos stateless, minimize_empty]
    exact ⟨rfl, rfl⟩
  · have subsets := isSubsetAutomaton_ofNfa only
    constructor
    · have defined :=
        congrArg Option.isSome (subsets.outcome?_minimize only built word)
      rw [outcome?, outcome?, Option.isSome_map, Option.isSome_map]
        at defined
      exact defined
    · exact subsets.accepts_minimize only built word

/-- The automaton of the pattern `a|b`, made to repeat and to lead into a dead
end, with its terminals flagged. -/
def loopWithDeadEnd : Nfa :=
  (((Nfa.ofRegex (.alternation (.literal 'a') (.literal 'b')) .fresh).1.addState
      6).addEdge ⟨5, .epsilon, 4⟩ |>.addEdge ⟨4, .char 'c', 6⟩).markTerminals

theorem loopWithDeadEnd_built : loopWithDeadEnd.Built := by
  have parsed : (Nfa.ofPattern ['a', '|', 'b'] .fresh).1 =
      .ok (Nfa.ofRegex (.alternation (.literal 'a') (.literal 'b')) .fresh).1 :=
    by decide
  exact .markTerminals (.addEdge _ (.addEdge _ (.addState _ (.parsed parsed))))

theorem loopWithDeadEnd_reachesOnlyStates :
    loopWithDeadEnd.ReachesOnlyStates := by
  rw [Nfa.reachesOnlyStates_iff (by decide +kernel)]
  decide +kernel

theorem minimize_ofNfa_preserves_runs_loopWithDeadEnd :
    loopWithDeadEnd.Built ∧ loopWithDeadEnd.ReachesOnlyStates ∧
      (ofNfa loopWithDeadEnd).size = 4 ∧
      (ofNfa loopWithDeadEnd).minimize.size = 3 ∧
      Nfa.Checked.determinize loopWithDeadEnd =
        .ok (ofNfa loopWithDeadEnd) ∧
      ∀ word,
        ((ofNfa loopWithDeadEnd).minimize.run?
              (ofNfa loopWithDeadEnd).minimize.start word).isSome =
            ((ofNfa loopWithDeadEnd).run?
              (ofNfa loopWithDeadEnd).start word).isSome ∧
          (ofNfa loopWithDeadEnd).minimize.accepts word =
            (ofNfa loopWithDeadEnd).accepts word := by
  refine ⟨loopWithDeadEnd_built, loopWithDeadEnd_reachesOnlyStates, ?_, ?_, ?_⟩
  · decide +kernel
  · decide +kernel
  · exact minimize_ofNfa_preserves_runs loopWithDeadEnd loopWithDeadEnd_built
      (.inr loopWithDeadEnd_reachesOnlyStates)

end PatternAutomata.Dfa
