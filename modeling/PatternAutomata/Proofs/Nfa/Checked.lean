import PatternAutomata.Checked
import PatternAutomata.Proofs.Nfa.Simulation

/-!
# When checked operations succeed

If only states can be reached from the start state, no checked operation that
begins there refuses anything, and its result is the one of the total
operation.  In particular acceptance is acceptance along a path.
-/

namespace PatternAutomata.Nfa

variable {nfa : Nfa}

namespace Checked

theorem require_eq_ok {ids : List StateId}
    (states : ∀ id ∈ ids, nfa.contains id = true) :
    require nfa ids = .ok () := by
  have none_found : ids.find? (fun id => !nfa.contains id) = none :=
    List.find?_eq_none.2 fun id member => by simp [states id member]
  rw [require, none_found]

theorem addEdges_eq_ok {edges : List Edge}
    (sources : ∀ edge ∈ edges, nfa.contains edge.source = true) :
    addEdges nfa edges = .ok (nfa.addEdges edges) := by
  have required : require nfa (edges.map Edge.source) = .ok () :=
    require_eq_ok (List.forall_mem_map.2 sources)
  rw [addEdges, required]
  rfl

theorem closure_eq_ok {starts : List StateId}
    (states : ∀ start ∈ starts, ∀ id, nfa.Path start [] id →
      nfa.contains id = true) :
    closure nfa starts = .ok (nfa.closure starts) := by
  have required : require nfa (nfa.emptyWalk starts) = .ok () := by
    refine require_eq_ok fun id member => ?_
    rcases (mem_emptyWalk_iff states).1 member with
      ⟨start, startMember, path⟩
    exact states start startMember id path
  rw [closure, required]
  rfl

theorem edge_eq_ok {sources : StateSet} {character : Char}
    (states : ∀ id ∈ sources, nfa.contains id = true) :
    edge nfa sources character = .ok (nfa.edge sources character) := by
  have required : require nfa sources.toList = .ok () :=
    require_eq_ok fun id member =>
      states id (Std.ExtTreeSet.mem_toList.1 member)
  rw [edge, required]
  rfl

/-- A simulation begins with states. -/
theorem closure_start_eq_ok (only : nfa.ReachesOnlyStates) :
    closure nfa [nfa.start] = .ok (nfa.after []) := by
  refine closure_eq_ok fun start member id path => ?_
  rw [List.mem_singleton.1 member] at path
  exact only id ⟨[], path⟩

/-- A simulation goes on to states. -/
theorem closure_edge_eq_ok (only : nfa.ReachesOnlyStates)
    (front : List Char) (character : Char) :
    closure nfa (nfa.edge (nfa.after front) character).toList =
      .ok (nfa.after (front ++ [character])) := by
  rw [after_append_singleton]
  refine closure_eq_ok fun start member id path => ?_
  rw [Std.ExtTreeSet.mem_toList, mem_edge_iff] at member
  rcases member with ⟨source, sourceMember, reading⟩
  exact only id
    (((only.reachable_of_mem_after sourceMember).extend
      (.ofEdge reading)).extend path)

theorem acceptsFrom_eq_ok (only : nfa.ReachesOnlyStates)
    (front word : List Char) :
    acceptsFrom nfa (nfa.after front) word =
      .ok ((nfa.after (front ++ word)).toList.any nfa.isFinal) := by
  induction word generalizing front with
  | nil => rw [List.append_nil]; rfl
  | cons character word accepts =>
      have edge : edge nfa (nfa.after front) character =
          .ok (nfa.edge (nfa.after front) character) :=
        edge_eq_ok fun id member => only.contains_of_mem_after member
      have closure := closure_edge_eq_ok only front character
      have whole : front ++ character :: word =
          front ++ [character] ++ word := by simp
      rw [acceptsFrom, edge]
      simp only [bind, Except.bind, closure]
      by_cases empty : nfa.after (front ++ [character]) = ∅
      · have stuck : nfa.after (front ++ character :: word) = ∅ := by
          by_contra nonempty
          rw [whole] at nonempty
          exact only.after_ne_empty_of_append nonempty empty
        rw [empty, stuck]
        rfl
      · rw [← Std.ExtTreeSet.isEmpty_eq_false_iff] at empty
        rw [empty, whole, ← accepts]
        rfl

theorem accepts_eq_ok (only : nfa.ReachesOnlyStates) (word : List Char) :
    accepts nfa word = .ok ((nfa.after word).toList.any nfa.isFinal) := by
  rw [accepts, only.isEmpty_eq_false, closure_start_eq_ok only]
  exact acceptsFrom_eq_ok only [] word

/-- The automaton accepts the words that paths from its start state to its
accepting states spell. -/
theorem accepts_eq_ok_true_iff (only : nfa.ReachesOnlyStates)
    (word : List Char) :
    accepts nfa word = .ok true ↔
      ∃ id, nfa.Path nfa.start word id ∧ nfa.isFinal id = true := by
  rw [accepts_eq_ok only, Except.ok.injEq, List.any_eq_true]
  simp only [Std.ExtTreeSet.mem_toList, only.mem_after_iff]

/-- The simulation comes to an answer, and it accepts a word if a path from the
start state to an accepting state spells it. -/
theorem simulates_paths (nfa : Nfa) (only : nfa.ReachesOnlyStates)
    (word : List Char) :
    ∃ answer, accepts nfa word = .ok answer ∧
      (answer = true ↔
        ∃ id, nfa.Path nfa.start word id ∧ nfa.isFinal id = true) := by
  refine ⟨_, accepts_eq_ok only word, ?_⟩
  rw [← accepts_eq_ok_true_iff only word, accepts_eq_ok only word,
    Except.ok.injEq]

/-- Empty edges join two states in a cycle.  The one reads `a` and stays, the
other reads `b` and leaves for an accepting state. -/
def emptyCycle : Nfa :=
  { ((((Nfa.empty.addState 0).addState 0).addState 0).addEdges
      [⟨0, .epsilon, 1⟩, ⟨1, .epsilon, 0⟩, ⟨1, .char 'a', 1⟩,
        ⟨0, .char 'b', 2⟩, ⟨2, .epsilon, 2⟩]) with final := 2 }.markTerminals

theorem simulates_paths_emptyCycle :
    emptyCycle.ReachesOnlyStates ∧
      (∃ id, emptyCycle.Path emptyCycle.start ['a', 'a', 'b'] id ∧
        emptyCycle.isFinal id = true) ∧
      ¬∃ id, emptyCycle.Path emptyCycle.start ['b', 'a'] id ∧
        emptyCycle.isFinal id = true := by
  have only : emptyCycle.ReachesOnlyStates := by
    rw [reachesOnlyStates_iff (by decide +kernel)]
    decide +kernel
  have accepted : accepts emptyCycle ['a', 'a', 'b'] = .ok true := by
    decide +kernel
  have rejected : accepts emptyCycle ['b', 'a'] = .ok false := by
    decide +kernel
  rcases simulates_paths emptyCycle only ['a', 'a', 'b'] with
    ⟨answer, same, paths⟩
  rcases simulates_paths emptyCycle only ['b', 'a'] with
    ⟨other, otherSame, otherPaths⟩
  cases accepted.symm.trans same
  cases rejected.symm.trans otherSame
  refine ⟨only, paths.1 rfl, ?_⟩
  intro path
  cases otherPaths.2 path

theorem determinize_eq_ok
    (only : nfa.isEmpty = true ∨ nfa.ReachesOnlyStates) :
    determinize nfa = .ok (Dfa.ofNfa nfa) := by
  have required : require nfa nfa.breadthFirst = .ok () := by
    rcases only with empty | only
    · rw [breadthFirst_of_isEmpty empty]
      rfl
    · exact require_eq_ok fun id member =>
        only id ((mem_breadthFirst_iff only).1 member)
  rw [determinize, required]
  rfl

end Checked

end PatternAutomata.Nfa

namespace PatternAutomata.Assembly.Checked

theorem addEdges_eq_ok {assembly : Assembly} {edges : List Edge}
    (sources : ∀ edge ∈ edges,
      assembly.nfa.contains edge.source = true) :
    addEdges edges assembly = .ok (assembly.addEdges edges) := by
  rw [addEdges, Nfa.Checked.addEdges_eq_ok sources]
  rfl

end PatternAutomata.Assembly.Checked
